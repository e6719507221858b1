import OnnxSim.Lib.Queues
import OnnxSim.Scheduler.Run

/-!
# The accounts of the tiles

A tile of a layer enters a partition queue, is sent to the queue of a core, is handed out to run
there, and is reported finished; a barrier is popped from the partition queue. `Scheduler.Inv`
accounts for the tiles of each layer: where they are, and that the counters of the layer agree.
Each move keeps the accounts, and so does every step of a run (`System.sound_step`).
-/

namespace OnnxSim

namespace Scheduler

def notBar (t : Tile) : Bool := t.status ≠ .BAR

def ofLayer (layerId : Nat) (t : Tile) : Bool := t.layerId == layerId

/-- The tiles of a layer in the queues of the `n` cores. -/
def queuedOf (n : Nat) (s : Scheduler) (layerId : Nat) : List Tile :=
  (Queues.pool n s.coreExecutableTileQueue).filter (ofLayer layerId)

/-- The tiles of a layer that the `n` cores have been given and have not reported. -/
def runningOf (n : Nat) (running : Nat → List Tile) (layerId : Nat) : List Tile :=
  (Queues.pool n running).filter (ofLayer layerId)

/-- The tiles of a layer in a partition queue. -/
def waitingOf (s : Scheduler) (p layerId : Nat) : List Tile :=
  (s.executableTileQueue p).filter (ofLayer layerId)

/-- The tiles, whatever core they are for. -/
def anyCore (tiles : List Tile) : List Tile := tiles.map (·.onCore 0)

/-- The accounts of a layer: its counters, and the places where its tiles are. `home` is the
partition whose queue the layer entered. -/
structure Inv (n : Nat) (home : Nat → Nat) (running : Nat → List Tile) (s : Scheduler) : Prop where
  pq : ∀ load ∈ s.corePq, load.coreId < n
  tagged : s.Tagged
  entered : ∀ l, anyCore (s.taken l ++ waitingOf s (home l) l) = anyCore (s.entered l)
  located : ∀ l t, ((s.taken l).filter notBar).count t =
    (queuedOf n s l).count t + (runningOf n running l).count t + (s.reported l).count t
  queues : ∀ p, ∀ t ∈ s.executableTileQueue p, s.isActive t.layerId ∧ home t.layerId = p
  active : ∀ l stat, s.activeLayersMap.lookup l = some stat →
    stat.launchedTiles = stat.finishedTiles + (runningOf n running l).length ∧
    stat.remainTiles = (s.executableTileQueue (home l)).countP (ofLayer l) +
      (queuedOf n s l).length + (runningOf n running l).length
  inactive : ∀ l, s.activeLayersMap.lookup l = none →
    queuedOf n s l = [] ∧ runningOf n running l = []

variable {config : SimulationConfig} {n : Nat} {home : Nat → Nat} {running : Nat → List Tile}
  {s s' : Scheduler}

/-! ## Bags of tiles -/

theorem count_filter_of_perm {xs ys : List Tile} {x : Tile} (h : xs.Perm (x :: ys)) (l : Nat)
    (t : Tile) : (xs.filter (ofLayer l)).count t =
      ([x].filter (ofLayer l)).count t + (ys.filter (ofLayer l)).count t := by
  have hfilter := (h.filter (ofLayer l)).count_eq t
  rw [hfilter, ← List.count_append, ← List.filter_append]
  rfl

theorem length_filter_of_perm {xs ys : List Tile} {x : Tile} (h : xs.Perm (x :: ys)) (l : Nat) :
    (xs.filter (ofLayer l)).length =
      ([x].filter (ofLayer l)).length + (ys.filter (ofLayer l)).length := by
  have hfilter := (h.filter (ofLayer l)).length_eq
  rw [hfilter, ← List.length_append, ← List.filter_append]
  rfl

/-- A list kept for each layer, after `x` has been put at the end of the list of its layer. -/
theorem update_snoc (f : Nat → List Tile) (x : Tile) (l : Nat) :
    Function.update f x.layerId (f x.layerId ++ [x]) l = f l ++ [x].filter (ofLayer l) := by
  by_cases h : l = x.layerId
  · subst h
    rw [Function.update_self]
    simp [ofLayer]
  · rw [Function.update_of_ne h]
    simp [ofLayer, Ne.symm h]

theorem countP_eq_length_filter_singleton (x : Tile) (rest : List Tile) (l : Nat) :
    (x :: rest).countP (ofLayer l) = ([x].filter (ofLayer l)).length + rest.countP (ofLayer l) := by
  rw [List.countP_eq_length_filter, List.countP_eq_length_filter, ← List.length_append,
    ← List.filter_append]
  rfl

/-! ## The moves keep the accounts -/

/-- Only the lookups in the map of active layers matter. -/
theorem Inv.congr_lookup {map : AList fun _ : Nat => LayerStat} (h : Inv n home running s)
    (hmap : ∀ l, map.lookup l = s.activeLayersMap.lookup l) :
    Inv n home running { s with activeLayersMap := map } where
  pq := h.pq
  tagged := h.tagged
  entered := h.entered
  located := h.located
  queues p t ht := by
    unfold isActive
    rw [hmap]
    exact h.queues p t ht
  active l stat hstat := h.active l stat (hmap l ▸ hstat)
  inactive l hl := h.inactive l (hmap l ▸ hl)

theorem Inv.requests {requests : List Request} {rr : Nat} {calls : List Nat} {left : List Model}
    (h : Inv n home running s) (ht : ∀ r ∈ requests, r.model.Tagged) :
    Inv n home running { s with
      requestQueue := requests, requestRr := rr, langFinished := calls, left := left } :=
  ⟨h.pq, ht, h.entered, h.located, h.queues, h.active, h.inactive⟩

theorem length_filter_onCore (tile : Tile) (core l : Nat) :
    ([tile.onCore core].filter (ofLayer l)).length = ([tile].filter (ofLayer l)).length := by
  by_cases h : tile.layerId = l <;> simp [ofLayer, h]

theorem filter_notBar_singleton {tile : Tile} (hbar : tile.status ≠ .BAR) (l : Nat) :
    ([tile].filter (ofLayer l)).filter notBar = [tile].filter (ofLayer l) := by
  apply List.filter_eq_self.mpr
  intro x hx
  obtain rfl := List.mem_singleton.mp (List.mem_of_mem_filter hx)
  simpa [notBar] using hbar

theorem isActive_iff {layerId : Nat} :
    s.isActive layerId ↔ ∃ stat, s.activeLayersMap.lookup layerId = some stat := by
  unfold isActive
  exact Option.isSome_iff_exists

theorem Inv.place {p core : Nat} {tile : Tile} {rest : List Tile} (h : Inv n home running s)
    (hcore : core < n) (hqueue : s.executableTileQueue p = tile :: rest)
    (hbar : tile.status ≠ .BAR) : Inv n home running (s.place p tile core) := by
  have hpush := Queues.pool_push (q := s.coreExecutableTileQueue) (x := tile.onCore core) hcore
  obtain ⟨hactive, hhome⟩ := h.queues p tile (hqueue ▸ List.mem_cons_self)
  have hqueued : ∀ l, (queuedOf n (s.place p tile core) l).length =
      ([tile].filter (ofLayer l)).length + (queuedOf n s l).length := by
    intro l
    rw [← length_filter_onCore tile core l]
    exact length_filter_of_perm hpush l
  refine ⟨h.pq, h.tagged, ?_, ?_, ?_, ?_, ?_⟩
  · intro l
    have htaken : (s.place p tile core).taken l =
        s.taken l ++ [tile.onCore core].filter (ofLayer l) :=
      update_snoc s.taken (tile.onCore core) l
    have hentered : (s.place p tile core).entered l = s.entered l := rfl
    rw [htaken, hentered, ← h.entered l]
    by_cases hl : tile.layerId = l
    · have htail : (s.place p tile core).executableTileQueue (home l) = rest := by
        simp [Scheduler.place, ← hl, hhome, hqueue]
      have hfront : s.executableTileQueue (home l) = tile :: rest := by
        rw [← hl, hhome, hqueue]
      simp [waitingOf, htail, hfront, anyCore, ofLayer, hl, Tile.onCore]
    · have hsame : waitingOf (s.place p tile core) (home l) l = waitingOf s (home l) l := by
        unfold waitingOf
        by_cases hp : home l = p
        · simp [Scheduler.place, hp, hqueue, ofLayer, hl]
        · simp [Scheduler.place, hp]
      rw [hsame]
      simp [anyCore, ofLayer, hl]
  · intro l t
    have htaken : (s.place p tile core).taken l =
        s.taken l ++ [tile.onCore core].filter (ofLayer l) :=
      update_snoc s.taken (tile.onCore core) l
    have hqueuedCount : (queuedOf n (s.place p tile core) l).count t =
        ([tile.onCore core].filter (ofLayer l)).count t + (queuedOf n s l).count t :=
      count_filter_of_perm hpush l t
    have hlocated := h.located l t
    have hreported : (s.place p tile core).reported l = s.reported l := rfl
    have hbar' : (tile.onCore core).status ≠ .BAR := hbar
    rw [htaken, List.filter_append, filter_notBar_singleton hbar',
      List.count_append, hqueuedCount, hreported]
    omega
  · intro q t ht
    by_cases hq : q = p
    · subst hq
      have htail : t ∈ rest := by simpa [Scheduler.place, hqueue] using ht
      exact h.queues q t (hqueue ▸ List.mem_cons_of_mem _ htail)
    · exact h.queues q t (by simpa [Scheduler.place, hq] using ht)
  · intro l stat hstat
    obtain ⟨hlaunched, hremain⟩ := h.active l stat hstat
    refine ⟨hlaunched, ?_⟩
    rw [hqueued, hremain]
    by_cases hl : home l = p
    · have hold := countP_eq_length_filter_singleton tile rest l
      simp only [hl, Scheduler.place, Function.update_self, hqueue, List.tail_cons]
      omega
    · have hother : tile.layerId ≠ l := fun heq => hl (heq ▸ hhome)
      simp [Scheduler.place, hl, ofLayer, hother]
  · intro l hl
    have hother : tile.layerId ≠ l := by
      rintro rfl
      obtain ⟨stat, hstat⟩ := isActive_iff.mp hactive
      cases hl.symm.trans hstat
    obtain ⟨hq, hr⟩ := h.inactive l hl
    refine ⟨List.length_eq_zero_iff.mp ?_, hr⟩
    rw [hqueued, hq]
    simp [ofLayer, hother]

theorem isSome_lookup_insert {map : AList fun _ : Nat => LayerStat} {k l : Nat}
    {stat : LayerStat} :
    ((map.insert l stat).lookup k).isSome ↔ k = l ∨ (map.lookup k).isSome := by
  by_cases h : k = l
  · subst h
    simp
  · simp [AList.lookup_insert_ne h, h]

/-- A layer that is not active has no tile in a partition queue. -/
theorem Inv.not_mem_queue (h : Inv n home running s) {l p : Nat}
    (hl : s.activeLayersMap.lookup l = none) : ∀ t ∈ s.executableTileQueue p, t.layerId ≠ l := by
  rintro t ht rfl
  obtain ⟨stat, hstat⟩ := isActive_iff.mp (h.queues p t ht).1
  cases hl.symm.trans hstat

theorem Inv.enqueueLayer {op : Operation} {requestId p : Nat} (h : Inv n home running s)
    (hqueue : s.executableTileQueue p = []) (hnew : s.activeLayersMap.lookup op.id = none)
    (hop : ∀ t ∈ op.tiles, t.layerId = op.id) :
    Inv n (Function.update home op.id p) running (s.enqueueLayer op requestId p) := by
  obtain ⟨hnoneQueued, hnoneRunning⟩ := h.inactive op.id hnew
  have hall : ((s.enqueueLayer op requestId p).executableTileQueue p) = op.tiles := by
    simp [Scheduler.enqueueLayer, hqueue]
  refine ⟨h.pq, h.tagged, ?_, h.located, ?_, ?_, ?_⟩
  · intro l
    have htaken : (s.enqueueLayer op requestId p).taken l = s.taken l := rfl
    have hold := h.entered l
    rw [htaken]
    by_cases hl : l = op.id
    · subst hl
      have hnone : waitingOf s (home op.id) op.id = [] := by
        refine List.filter_eq_nil_iff.mpr fun t ht => ?_
        simpa [ofLayer] using h.not_mem_queue hnew t ht
      have hnow : waitingOf (s.enqueueLayer op requestId p) p op.id = op.tiles := by
        unfold waitingOf
        rw [hall]
        exact List.filter_eq_self.mpr fun t ht => by simp [ofLayer, hop t ht]
      rw [hnone, List.append_nil] at hold
      have hentered : (s.enqueueLayer op requestId p).entered op.id =
          s.entered op.id ++ op.tiles := Function.update_self _ _ _
      rw [Function.update_self, hnow, hentered]
      unfold anyCore at hold ⊢
      rw [List.map_append, List.map_append, hold]
    · have hsame : waitingOf (s.enqueueLayer op requestId p) (home l) l =
          waitingOf s (home l) l := by
        unfold waitingOf
        by_cases hp : home l = p
        · rw [hp, hall, hqueue]
          refine List.filter_eq_nil_iff.mpr fun t ht => ?_
          simp [ofLayer, hop t ht, Ne.symm hl]
        · simp [Scheduler.enqueueLayer, hp]
      have hentered : (s.enqueueLayer op requestId p).entered l = s.entered l :=
        Function.update_of_ne hl _ _
      rw [Function.update_of_ne hl, hsame, hentered, hold]
  · intro q t ht
    by_cases hq : q = p
    · subst hq
      rw [hall] at ht
      exact ⟨isSome_lookup_insert.mpr (.inl (hop t ht)), by rw [hop t ht, Function.update_self]⟩
    · have ht' : t ∈ s.executableTileQueue q := by simpa [Scheduler.enqueueLayer, hq] using ht
      have hne : t.layerId ≠ op.id := h.not_mem_queue hnew t ht'
      obtain ⟨hactive, hhome⟩ := h.queues q t ht'
      exact ⟨isSome_lookup_insert.mpr (.inr hactive), by rw [Function.update_of_ne hne, hhome]⟩
  · intro l stat hstat
    by_cases hl : l = op.id
    · subst hl
      obtain rfl : _ = stat := by simpa [Scheduler.enqueueLayer] using hstat
      have hq : queuedOf n (s.enqueueLayer op requestId p) op.id = [] := hnoneQueued
      have hcount : op.tiles.countP (ofLayer op.id) = op.tiles.length :=
        List.countP_eq_length.mpr fun t ht => by simp [ofLayer, hop t ht]
      rw [hq, hnoneRunning, Function.update_self, hall, hcount, hqueue]
      simp
    · have hold : s.activeLayersMap.lookup l = some stat := by
        simpa [Scheduler.enqueueLayer, AList.lookup_insert_ne hl] using hstat
      obtain ⟨hlaunched, hremain⟩ := h.active l stat hold
      refine ⟨hlaunched, ?_⟩
      have hq : queuedOf n (s.enqueueLayer op requestId p) l = queuedOf n s l := rfl
      rw [hq, hremain, Function.update_of_ne hl]
      by_cases hp : home l = p
      · have hnone : op.tiles.countP (ofLayer l) = 0 := by
          apply List.countP_eq_zero.mpr
          intro t ht
          simp [ofLayer, hop t ht, Ne.symm hl]
        rw [hp, hall, hqueue, hnone]
        rfl
      · simp [Scheduler.enqueueLayer, hp]
  · intro l hl
    exact h.inactive l (AList.lookup_insert_eq_none.mp hl).2

/-- The tile at the front of a core's queue is handed out. -/
theorem Inv.give {core : Nat} {tile : Tile} {rest : List Tile} {stat : LayerStat}
    (h : Inv n home running s) (hcore : core < n)
    (hqueue : s.coreExecutableTileQueue core = tile :: rest)
    (hstat : s.activeLayersMap.lookup tile.layerId = some stat) :
    Inv n home (Function.update running core (running core ++ [tile]))
      { s with
        activeLayersMap := s.activeLayersMap.insert tile.layerId
          { stat with launchedTiles := stat.launchedTiles + 1 }
        coreExecutableTileQueue := Function.update s.coreExecutableTileQueue core rest } := by
  have hpop := Queues.pool_remove (q := s.coreExecutableTileQueue) (l := rest) (x := tile) hcore
    (by rw [hqueue])
  have hpush := Queues.pool_push (q := running) (x := tile) hcore
  have hlengths : ∀ l, (queuedOf n s l).length = ([tile].filter (ofLayer l)).length +
        ((Queues.pool n (Function.update s.coreExecutableTileQueue core rest)).filter
          (ofLayer l)).length ∧
      (runningOf n (Function.update running core (running core ++ [tile])) l).length =
        ([tile].filter (ofLayer l)).length + (runningOf n running l).length :=
    fun l => ⟨length_filter_of_perm hpop l, length_filter_of_perm hpush l⟩
  refine ⟨h.pq, h.tagged, h.entered, ?_, ?_, ?_, ?_⟩
  · intro l t
    have hlocated := h.located l t
    have hq := count_filter_of_perm hpop l t
    have hr := count_filter_of_perm hpush l t
    unfold queuedOf runningOf at hlocated ⊢
    simp only
    omega
  · intro p t ht
    obtain ⟨hactive, hhome⟩ := h.queues p t ht
    exact ⟨isSome_lookup_insert.mpr (.inr hactive), hhome⟩
  · intro l st hst
    obtain ⟨hq, hr⟩ := hlengths l
    by_cases hl : l = tile.layerId
    · subst hl
      have hst' := (AList.lookup_insert _).symm.trans hst
      obtain rfl := Option.some.inj hst'
      obtain ⟨hlaunched, hremain⟩ := h.active _ stat hstat
      have hone : ([tile].filter (ofLayer tile.layerId)).length = 1 := by simp [ofLayer]
      refine ⟨?_, ?_⟩
      · simp only
        omega
      · simp only [queuedOf]
        omega
    · have hold : s.activeLayersMap.lookup l = some st := (AList.lookup_insert_ne hl).symm.trans hst
      obtain ⟨hlaunched, hremain⟩ := h.active l st hold
      have hnone : ([tile].filter (ofLayer l)).length = 0 := by simp [ofLayer, Ne.symm hl]
      refine ⟨?_, ?_⟩
      · omega
      · simp only [queuedOf] at *
        omega
  · intro l hl
    obtain ⟨hne, hold⟩ := AList.lookup_insert_eq_none.mp hl
    obtain ⟨hqueued, hrunning⟩ := h.inactive l hold
    obtain ⟨hq, hr⟩ := hlengths l
    have hnone : ([tile].filter (ofLayer l)).length = 0 := by simp [ofLayer, Ne.symm hne]
    rw [hqueued, hnone, List.length_nil] at hq
    rw [hrunning, hnone, List.length_nil] at hr
    exact ⟨List.length_eq_zero_iff.mp (by simp only [queuedOf]; omega),
      List.length_eq_zero_iff.mp (by omega)⟩

theorem layerStat_eq {l : Nat} {stat : LayerStat} (h : s.activeLayersMap.lookup l = some stat) :
    s.layerStat l = stat := by
  unfold layerStat
  rw [h]
  rfl

theorem Inv.popBar {p : Nat} {tile : Tile} {rest : List Tile} (h : Inv n home running s)
    (hqueue : s.executableTileQueue p = tile :: rest) (hbar : tile.status = .BAR) :
    Inv n home running (s.popBar p tile) := by
  obtain ⟨hactive, hhome⟩ := h.queues p tile (hqueue ▸ List.mem_cons_self)
  obtain ⟨stat, hstat⟩ := isActive_iff.mp hactive
  have htail : (s.popBar p tile).executableTileQueue p = rest := by
    simp [Scheduler.popBar, hqueue]
  have hother : ∀ q, q ≠ p →
      (s.popBar p tile).executableTileQueue q = s.executableTileQueue q :=
    fun q hq => Function.update_of_ne hq _ _
  refine ⟨h.pq, h.tagged, ?_, ?_, ?_, ?_, ?_⟩
  · intro l
    have htaken : (s.popBar p tile).taken l = s.taken l ++ [tile].filter (ofLayer l) :=
      update_snoc s.taken tile l
    have hentered : (s.popBar p tile).entered l = s.entered l := rfl
    rw [htaken, hentered, ← h.entered l]
    by_cases hl : tile.layerId = l
    · have hnow : (s.popBar p tile).executableTileQueue (home l) = rest := by
        rw [← hl, hhome, htail]
      have hfront : s.executableTileQueue (home l) = tile :: rest := by
        rw [← hl, hhome, hqueue]
      simp [waitingOf, hnow, hfront, ofLayer, hl]
    · have hsame : waitingOf (s.popBar p tile) (home l) l = waitingOf s (home l) l := by
        unfold waitingOf
        by_cases hp : home l = p
        · simp [hp, htail, hqueue, ofLayer, hl]
        · rw [hother _ hp]
      rw [hsame]
      simp [ofLayer, hl]
  · intro l t
    have htaken : (s.popBar p tile).taken l = s.taken l ++ [tile].filter (ofLayer l) :=
      update_snoc s.taken tile l
    have hnone : ([tile].filter (ofLayer l)).filter notBar = [] := by
      apply List.filter_eq_nil_iff.mpr
      intro x hx
      obtain rfl := List.mem_singleton.mp (List.mem_of_mem_filter hx)
      simp [notBar, hbar]
    rw [htaken, List.filter_append, hnone, List.append_nil]
    exact h.located l t
  · intro q t ht
    have ht' : t ∈ s.executableTileQueue q := by
      by_cases hq : q = p
      · subst hq
        rw [htail] at ht
        exact hqueue ▸ List.mem_cons_of_mem _ ht
      · rwa [hother q hq] at ht
    obtain ⟨hactive', hhome'⟩ := h.queues q t ht'
    exact ⟨isSome_lookup_insert.mpr (.inr hactive'), hhome'⟩
  · intro l st hst
    have hq : queuedOf n (s.popBar p tile) l = queuedOf n s l := rfl
    by_cases hl : l = tile.layerId
    · subst hl
      have hst' := (AList.lookup_insert _).symm.trans hst
      obtain rfl := Option.some.inj hst'
      obtain ⟨hlaunched, hremain⟩ := h.active _ stat hstat
      have hcount := countP_eq_length_filter_singleton tile rest tile.layerId
      have hone : ([tile].filter (ofLayer tile.layerId)).length = 1 := by simp [ofLayer]
      rw [hhome, hqueue] at hremain
      rw [layerStat_eq hstat, hq, hhome, htail]
      simp only
      omega
    · have hold : s.activeLayersMap.lookup l = some st := (AList.lookup_insert_ne hl).symm.trans hst
      obtain ⟨hlaunched, hremain⟩ := h.active l st hold
      refine ⟨hlaunched, ?_⟩
      rw [hq, hremain]
      by_cases hp : home l = p
      · have hskip : ([tile].filter (ofLayer l)).length = 0 := by simp [ofLayer, Ne.symm hl]
        have hcount := countP_eq_length_filter_singleton tile rest l
        rw [hp, htail, hqueue]
        omega
      · rw [hother _ hp]
  · intro l hl
    exact h.inactive l (AList.lookup_insert_eq_none.mp hl).2

/-- A core reports a tile that it holds. -/
theorem Inv.report {core i : Nat} {tile : Tile} {stat : LayerStat} (h : Inv n home running s)
    (hcore : core < n) (htile : (running core)[i]? = some tile)
    (hstat : s.activeLayersMap.lookup tile.layerId = some stat) :
    Inv n home (Function.update running core ((running core).eraseIdx i))
      ((s.report tile).setLayerStat tile.layerId { stat with
        remainTiles := stat.remainTiles - 1, finishedTiles := stat.finishedTiles + 1 }) := by
  obtain ⟨hi, rfl⟩ := List.getElem?_eq_some_iff.mp htile
  generalize hx : (running core)[i] = tile at *
  have herase : (running core).Perm (tile :: (running core).eraseIdx i) :=
    hx ▸ (List.getElem_cons_eraseIdx_perm hi).symm
  have hremove := Queues.pool_remove hcore herase
  refine ⟨h.pq, h.tagged, h.entered, ?_, ?_, ?_, ?_⟩
  · intro l t
    have hlocated := h.located l t
    have hcount := count_filter_of_perm hremove l t
    have hreported : (s.report tile).reported l = s.reported l ++ [tile].filter (ofLayer l) :=
      update_snoc s.reported tile l
    have hq : queuedOf n ((s.report tile).setLayerStat tile.layerId { stat with
        remainTiles := stat.remainTiles - 1, finishedTiles := stat.finishedTiles + 1 }) l =
        queuedOf n s l := rfl
    rw [hq]
    simp only [setLayerStat, hreported, List.count_append]
    unfold runningOf at hlocated ⊢
    have htaken : (s.report tile).taken l = s.taken l := rfl
    rw [htaken]
    omega
  · intro p t ht
    obtain ⟨hactive, hhome⟩ := h.queues p t ht
    exact ⟨isSome_lookup_insert.mpr (.inr hactive), hhome⟩
  · intro l st hst
    have hlength := length_filter_of_perm hremove l
    have hq : queuedOf n ((s.report tile).setLayerStat tile.layerId { stat with
        remainTiles := stat.remainTiles - 1, finishedTiles := stat.finishedTiles + 1 }) l =
        queuedOf n s l := rfl
    have hp : ∀ p, ((s.report tile).setLayerStat tile.layerId { stat with
        remainTiles := stat.remainTiles - 1, finishedTiles := stat.finishedTiles + 1 }
        ).executableTileQueue p = s.executableTileQueue p := fun _ => rfl
    rw [hq, hp]
    by_cases hl : l = tile.layerId
    · subst hl
      have hst' := (AList.lookup_insert _).symm.trans hst
      obtain rfl := Option.some.inj hst'
      obtain ⟨hlaunched, hremain⟩ := h.active _ stat hstat
      have hone : ([tile].filter (ofLayer tile.layerId)).length = 1 := by simp [ofLayer]
      unfold runningOf at hlaunched hremain ⊢
      simp only
      omega
    · have hold : s.activeLayersMap.lookup l = some st := (AList.lookup_insert_ne hl).symm.trans hst
      obtain ⟨hlaunched, hremain⟩ := h.active l st hold
      have hnone : ([tile].filter (ofLayer l)).length = 0 := by simp [ofLayer, Ne.symm hl]
      unfold runningOf at hlaunched hremain ⊢
      omega
  · intro l hl
    obtain ⟨hne, hold⟩ := AList.lookup_insert_eq_none.mp hl
    obtain ⟨hqueued, hrunning⟩ := h.inactive l hold
    have hlength := length_filter_of_perm hremove l
    unfold runningOf at hrunning ⊢
    rw [hrunning, List.length_nil] at hlength
    exact ⟨hqueued, List.length_eq_zero_iff.mp (by omega)⟩

/-- A layer with no remaining tile leaves the map. -/
theorem Inv.erase {l : Nat} {stat : LayerStat} {map : AList fun _ : Nat => LayerStat}
    (h : Inv n home running s) (hstat : s.activeLayersMap.lookup l = some stat)
    (hremain : stat.remainTiles = 0) (hnone : map.lookup l = none)
    (hmap : ∀ k, k ≠ l → map.lookup k = s.activeLayersMap.lookup k) :
    Inv n home running { s with activeLayersMap := map } := by
  obtain ⟨-, hsum⟩ := h.active l stat hstat
  refine ⟨h.pq, h.tagged, h.entered, h.located, ?_, ?_, ?_⟩
  · intro p t ht
    obtain ⟨hactive, hhome⟩ := h.queues p t ht
    refine ⟨?_, hhome⟩
    have hne : t.layerId ≠ l := by
      rintro rfl
      have hcount : 0 < (s.executableTileQueue (home t.layerId)).countP (ofLayer t.layerId) :=
        List.countP_pos_iff.mpr ⟨t, hhome ▸ ht, by simp [ofLayer]⟩
      omega
    unfold isActive
    rw [hmap _ hne]
    exact hactive
  · intro k st hst
    by_cases hk : k = l
    · subst hk
      cases hnone.symm.trans hst
    · exact h.active k st (hmap k hk ▸ hst)
  · intro k hk
    by_cases hkl : k = l
    · subst hkl
      exact ⟨List.length_eq_zero_iff.mp (by simp only [queuedOf] at *; omega),
        List.length_eq_zero_iff.mp (by omega)⟩
    · exact h.inactive k (hmap k hkl ▸ hk)

/-! ## The functions keep the accounts -/

/-- The accounts are in order. -/
def Sound (config : SimulationConfig) (running : Nat → List Tile) (s : Scheduler) : Prop :=
  ∃ home, Inv config.numCores home running s

theorem countTile_eq_some {tile : Tile} {top load : CoreLoad} {core : Nat}
    (h : countTile config s tile top core = some (load, s')) :
    load.coreId = top.coreId ∧
      ∃ tileNum insNum, s' = { s with tileNum := tileNum, insNum := insNum } := by
  unfold countTile at h
  split at h
  · obtain ⟨rfl, rfl⟩ := Prod.mk.inj (Option.some.inj h)
    exact ⟨rfl, _, _, rfl⟩
  · split at h
    · obtain ⟨rfl, rfl⟩ := Prod.mk.inj (Option.some.inj h)
      exact ⟨rfl, _, _, rfl⟩
    · cases h

/-- An issued tile is placed at some core; for the rest only the loads change. -/
theorem issueTile_eq_some {remap : Nat → Nat} {offset p : Nat} {tile : Tile}
    (hpq : ∀ load ∈ s.corePq, load.coreId < config.numCores) (hlands : Lands config remap offset)
    (h : issueTile config remap offset p s tile = some s') :
    ∃ core pq tileNum insNum, core < config.numCores ∧
      (∀ load ∈ pq, load.coreId < config.numCores) ∧
      s' = { s.place p tile core with corePq := pq, tileNum := tileNum, insNum := insNum } := by
  obtain ⟨top, htop, h⟩ := Option.bind_eq_some_iff.mp h
  obtain ⟨⟨load, s₁⟩, hcount, h⟩ := Option.bind_eq_some_iff.mp h
  obtain rfl := Option.some.inj h
  obtain ⟨hload, tileNum, insNum, rfl⟩ := countTile_eq_some hcount
  have htopCore : top.coreId < config.numCores := hpq top (List.mem_of_find?_eq_some htop)
  refine ⟨remap (top.coreId + offset), _, tileNum, insNum, ?_, ?_, rfl⟩
  · rcases hlands with ⟨rfl, rfl⟩ | hremap
    · exact htopCore
    · exact hremap _
  · intro l hl
    rcases List.mem_append.mp hl with hl | hl
    · exact hpq l (List.mem_of_mem_erase hl)
    · obtain rfl := List.mem_singleton.mp hl
      exact hload ▸ htopCore

theorem Sound.issueTile {remap : Nat → Nat} {offset p : Nat} {tile : Tile} {rest : List Tile}
    (h : Sound config running s) (hlands : Lands config remap offset)
    (hqueue : s.executableTileQueue p = tile :: rest) (hbar : tile.status ≠ .BAR)
    (hs : issueTile config remap offset p s tile = some s') : Sound config running s' := by
  obtain ⟨home, h⟩ := h
  obtain ⟨core, pq, tileNum, insNum, hcore, hpq, rfl⟩ := issueTile_eq_some h.pq hlands hs
  have hplaced := h.place hcore hqueue hbar
  exact ⟨home, hpq, hplaced.tagged, hplaced.entered, hplaced.located, hplaced.queues,
    hplaced.active, hplaced.inactive⟩

/-- `refresh_status` keeps the accounts, and whatever else it keeps along the way. -/
theorem Sound.refreshStatus {type : SchedulerType} {P : Scheduler → Prop}
    (hrequests : ∀ (s : Scheduler) requests rr calls left, P s → P { s with
      requestQueue := requests, requestRr := rr, langFinished := calls, left := left })
    (henqueue : ∀ (s : Scheduler) (op : Operation) requestId p, P s →
      P (s.enqueueLayer op requestId p))
    (hplace : ∀ (s s' : Scheduler) remap offset p tile rest, Sound config running s → P s →
      Lands config remap offset → s.executableTileQueue p = tile :: rest → tile.status ≠ .BAR →
      Scheduler.issueTile config remap offset p s tile = some s' → P s')
    (h : Sound config running s) (hP : P s)
    (hs : Scheduler.refreshStatus config type s = some s') : Sound config running s' ∧ P s' := by
  refine refreshStatus_induction (Q := fun s => Sound config running s ∧ P s) ?_ ?_ ?_ ?_
    ⟨h, hP⟩ hs
  · rintro s ⟨⟨home, h⟩, -⟩
    exact h.tagged
  · rintro s requests rr calls left ⟨⟨home, h⟩, hP⟩ ht
    exact ⟨⟨home, h.requests ht⟩, hrequests s requests rr calls left hP⟩
  · rintro s op requestId p ⟨⟨home, h⟩, hP⟩ hqueue hnew hop
    exact ⟨⟨_, h.enqueueLayer hqueue hnew hop⟩, henqueue s op requestId p hP⟩
  · rintro s s' remap offset p tile rest ⟨h, hP⟩ hlands hqueue hbar hs
    exact ⟨h.issueTile hlands hqueue hbar hs, hplace s s' remap offset p tile rest h hP hlands
      hqueue hbar hs⟩

/-! ## Steps -/

section steps

variable {type : SchedulerType} {P : Scheduler → Prop}
  (hframe : ∀ s s' : Scheduler, s'.taken = s.taken → s'.reported = s.reported → P s → P s')
  (hplace : ∀ (s s' : Scheduler) running remap offset p tile rest, Sound config running s → P s →
    Lands config remap offset → s.executableTileQueue p = tile :: rest → tile.status ≠ .BAR →
    Scheduler.issueTile config remap offset p s tile = some s' → P s')

include hframe hplace

theorem Sound.refresh (h : Sound config running s) (hP : P s)
    (hs : Scheduler.refreshStatus config type s = some s') : Sound config running s' ∧ P s' :=
  Sound.refreshStatus (fun s _ _ _ _ hP => hframe s _ rfl rfl hP)
    (fun s _ _ _ hP => hframe s _ rfl rfl hP)
    (fun s s' => hplace s s' running) h hP hs

/-- The last tile of a layer: the layer leaves the map. -/
theorem Sound.finishLayer {u : Scheduler} {l : Nat} {stat stat' : LayerStat}
    (h : Sound config running s) (hP : P s) (hstat : s.activeLayersMap.lookup l = some stat)
    (hremain : stat.remainTiles = 0) {map : AList fun _ : Nat => LayerStat}
    (hmap : ∀ k, k ≠ l → map.lookup k = s.activeLayersMap.lookup k)
    (hu : Scheduler.setLayerFinish type { s with activeLayersMap := map } l stat' = some u)
    (hs : Scheduler.refreshStatus config type
      { u with activeLayersMap := u.activeLayersMap.erase l } = some s') :
    Sound config running s' ∧ P s' := by
  obtain ⟨home, hinv⟩ := h
  have htagged : Tagged { s with activeLayersMap := map } := hinv.tagged
  obtain ⟨requests, rfl, hrequests⟩ := setLayerFinish_eq_some htagged hu
  have hothers : ∀ k, k ≠ l → (map.erase l).lookup k = s.activeLayersMap.lookup k :=
    fun k hk => (AList.lookup_erase_ne hk).trans (hmap k hk)
  have herased := hinv.erase hstat hremain (AList.lookup_erase l map) hothers
  have hsound : Sound config running { s with
      requestQueue := requests, activeLayersMap := map.erase l, retired := s.retired ++ [l] } :=
    ⟨home, herased.pq, hrequests, herased.entered, herased.located, herased.queues, herased.active,
      herased.inactive⟩
  exact Sound.refresh hframe hplace hsound (hframe s _ rfl rfl hP) hs

theorem Sound.finishTile {core i : Nat} {tile : Tile}
    (hreport : ∀ (s : Scheduler) tile, P s → P (s.report tile))
    (h : Sound config running s) (hP : P s) (hcore : core < config.numCores)
    (htile : (running core)[i]? = some tile)
    (hs : Scheduler.finishTile config type (s.report tile) tile.layerId = some s') :
    Sound config (Function.update running core ((running core).eraseIdx i)) s' ∧ P s' := by
  obtain ⟨home, hinv⟩ := h
  obtain ⟨stat, hstat, hremain, hcases⟩ := finishTile_eq_some hs
  have hstat' : s.activeLayersMap.lookup tile.layerId = some stat := hstat
  have hreported := hinv.report hcore htile hstat'
  have hPreported := hreport s tile hP
  rcases hcases with ⟨-, hs⟩ | ⟨hone, u, hu, hs⟩
  · exact Sound.refresh hframe hplace ⟨home, hreported⟩
      (hframe (s.report tile) _ rfl rfl hPreported) hs
  · refine Sound.finishLayer hframe hplace ⟨home, hreported⟩
      (hframe (s.report tile) _ rfl rfl hPreported) (AList.lookup_insert _) ?_ (fun _ _ => rfl) hu hs
    simp only
    omega

/-- What follows a popped barrier. -/
theorem Sound.afterBar {core l : Nat} (h : Sound config running s) (hP : P s)
    (hactive : s.isActive l)
    (hs : Scheduler.afterBar config type s core (config.partitionOf core) l = some s') :
    Sound config running s' ∧ P s' := by
  obtain ⟨stat, hstat⟩ := isActive_iff.mp hactive
  unfold Scheduler.afterBar at hs
  simp only [layerStat_eq hstat] at hs
  split at hs
  · rename_i hremain
    -- the layer's counter is raised to one for `finish_tile` to lower
    obtain ⟨stat', hstat', -, hcases⟩ := finishTile_eq_some hs
    have heq := (AList.lookup_insert _).symm.trans hstat'
    obtain rfl := Option.some.inj heq
    rcases hcases with ⟨hne, -⟩ | ⟨-, u, hu, hs⟩
    · exact absurd rfl hne
    · refine Sound.finishLayer hframe hplace h hP hstat hremain ?_ hu hs
      intro k hk
      exact (AList.lookup_insert_ne hk).trans (AList.lookup_insert_ne hk)
  · refine issueTilePerCoreIn_induction (Q := fun s => Sound config running s ∧ P s) ?_ ⟨h, hP⟩ hs
    rintro s s' remap offset p tile rest ⟨h, hP⟩ hlands hqueue hbar hs
    exact ⟨h.issueTile hlands hqueue hbar hs,
      hplace s s' running remap offset p tile rest h hP hlands hqueue hbar hs⟩

end steps

end Scheduler

namespace System

open Scheduler

variable {config : SimulationConfig} {type : SchedulerType} {s u : System} {a : Act}

/-- A poll of core `core` pops the barrier `bar` of the core's partition. -/
structure PopsBar (config : SimulationConfig) (s : System) (core : Nat) (bar : Tile) : Prop where
  core_lt : core < config.numCores
  coreQueue : s.sched.coreExecutableTileQueue core = []
  front : ∃ rest, s.sched.executableTileQueue (config.partitionOf core) = bar :: rest
  status : bar.status = .BAR
  allFinished : (s.sched.layerStat bar.layerId).launchedTiles =
    (s.sched.layerStat bar.layerId).finishedTiles

/-- A poll hands out a tile, refreshes the status, pops a barrier, or does nothing. -/
theorem getTile_cases {core : Nat} {tile : Option Tile} {sched : Scheduler}
    (hsound : Sound config s.running s.sched) (hcore : core < config.numCores)
    (h : s.sched.getTile config type core = some (tile, sched)) :
    (∃ t rest stat, tile = some t ∧ s.sched.coreExecutableTileQueue core = t :: rest ∧
      s.sched.activeLayersMap.lookup t.layerId = some stat ∧
      sched = { s.sched with
        activeLayersMap := s.sched.activeLayersMap.insert t.layerId
          { stat with launchedTiles := stat.launchedTiles + 1 }
        coreExecutableTileQueue :=
          Function.update s.sched.coreExecutableTileQueue core rest }) ∨
    tile = none ∧ ((∀ bar, ¬ PopsBar config s core bar) ∧
        refreshStatus config type s.sched = some sched ∨
      (∃ bar, PopsBar config s core bar ∧ s.sched.isActive bar.layerId ∧
        afterBar config type (s.sched.popBar (config.partitionOf core) bar) core
          (config.partitionOf core) bar.layerId = some sched) ∨
      (∀ bar, ¬ PopsBar config s core bar) ∧ ∃ map : AList fun _ : Nat => LayerStat,
        (∀ l, map.lookup l = s.sched.activeLayersMap.lookup l) ∧
        sched = { s.sched with activeLayersMap := map }) := by
  obtain ⟨home, hinv⟩ := hsound
  unfold Scheduler.getTile at h
  simp only at h
  split at h
  · rename_i hcoreQueue hqueue
    obtain ⟨d, hd, h⟩ := Option.bind_eq_some_iff.mp h
    obtain ⟨rfl, rfl⟩ := Prod.mk.inj (Option.some.inj h)
    refine .inr ⟨rfl, .inl ⟨fun bar hbar => ?_, hd⟩⟩
    obtain ⟨rest, hfront⟩ := hbar.front
    rw [hqueue] at hfront
    cases hfront
  · rename_i t rest hqueue
    obtain ⟨rfl, rfl⟩ := Prod.mk.inj (Option.some.inj h)
    -- a tile in a core queue belongs to an active layer
    have hmem : t ∈ queuedOf config.numCores s.sched t.layerId := by
      refine List.mem_filter.mpr ⟨Queues.mem_pool.mpr ⟨core, hcore, ?_⟩, by simp [ofLayer]⟩
      exact hqueue ▸ List.mem_cons_self
    cases hstat : s.sched.activeLayersMap.lookup t.layerId with
    | none =>
      rw [(hinv.inactive _ hstat).1] at hmem
      cases hmem
    | some stat =>
      refine .inl ⟨t, rest, stat, rfl, hqueue, hstat, ?_⟩
      rw [layerStat_eq hstat]
      rfl
  · rename_i bar rest hcoreQueue hqueue
    obtain ⟨hactive, -⟩ := hinv.queues _ bar (hqueue ▸ List.mem_cons_self)
    obtain ⟨stat, hstat⟩ := isActive_iff.mp hactive
    split at h
    · rename_i hbar
      split at h
      · rename_i hall
        obtain ⟨d, hd, h⟩ := Option.bind_eq_some_iff.mp h
        obtain ⟨rfl, rfl⟩ := Prod.mk.inj (Option.some.inj h)
        exact .inr ⟨rfl, .inr (.inl ⟨bar, ⟨hcore, hcoreQueue, ⟨rest, hqueue⟩, hbar, hall⟩,
          hactive, hd⟩)⟩
      · rename_i hrunning
        obtain ⟨rfl, rfl⟩ := Prod.mk.inj (Option.some.inj h)
        refine .inr ⟨rfl, .inr (.inr ⟨fun bar' hbar' => ?_, _, fun l => ?_, rfl⟩)⟩
        · obtain ⟨rest', hfront⟩ := hbar'.front
          rw [hqueue] at hfront
          obtain ⟨rfl, -⟩ := List.cons.inj hfront
          exact hrunning hbar'.allFinished
        by_cases hl : l = bar.layerId
        · subst hl
          rw [layerStat_eq hstat]
          exact (AList.lookup_insert _).trans hstat.symm
        · exact AList.lookup_insert_ne hl
    · rename_i hbar
      obtain ⟨rfl, rfl⟩ := Prod.mk.inj (Option.some.inj h)
      refine .inr ⟨rfl, .inr (.inr ⟨fun bar' hbar' => ?_, _, fun _ => rfl, rfl⟩)⟩
      obtain ⟨rest', hfront⟩ := hbar'.front
      rw [hqueue] at hfront
      obtain ⟨rfl, -⟩ := List.cons.inj hfront
      exact hbar hbar'.status

/-- What the parts of a step keep, a step keeps along with the accounts. -/
theorem step_keeps {P : Scheduler → Prop}
    (hframe : ∀ s s' : Scheduler, s'.taken = s.taken → s'.reported = s.reported → P s → P s')
    (hplace : ∀ (s s' : Scheduler) running remap offset p tile rest, Sound config running s →
      P s → Lands config remap offset → s.executableTileQueue p = tile :: rest →
      tile.status ≠ .BAR → Scheduler.issueTile config remap offset p s tile = some s' → P s')
    (hreport : ∀ (s : Scheduler) tile, P s → P (s.report tile))
    (hpop : ∀ core bar, a = .getTile core → PopsBar config s core bar →
      P (s.sched.popBar (config.partitionOf core) bar))
    (h : Sound config s.running s.sched) (hP : P s.sched) (hs : step config type s a = some u) :
    Sound config u.running u.sched ∧ P u.sched := by
  cases a with
  | scheduleModel requestId m tagged =>
    obtain ⟨sched, hsched, hs⟩ := Option.bind_eq_some_iff.mp hs
    obtain rfl := Option.some.inj hs
    obtain ⟨home, hinv⟩ := h
    have hrequests : ∀ r ∈ s.sched.requestQueue ++ [{ requestId := requestId, model := m }],
        r.model.Tagged := by
      intro r hr
      rcases List.mem_append.mp hr with hr | hr
      · exact hinv.tagged r hr
      · obtain rfl := List.mem_singleton.mp hr
        exact tagged
    exact Sound.refresh hframe hplace ⟨home, hinv.requests hrequests⟩
      (hframe s.sched _ rfl rfl hP) hsched
  | getTile core =>
    unfold step at hs
    simp only at hs
    split at hs
    · rename_i hcore
      obtain ⟨⟨tile, sched⟩, hget, hs⟩ := Option.bind_eq_some_iff.mp hs
      obtain rfl := Option.some.inj hs
      rcases getTile_cases h hcore hget with ⟨t, rest, stat, rfl, hqueue, hstat, rfl⟩ |
        ⟨rfl, ⟨-, hrefresh⟩ | ⟨bar, hbar, hactive, hafter⟩ | ⟨-, map, hmap, rfl⟩⟩
      · obtain ⟨home, hinv⟩ := h
        exact ⟨⟨home, hinv.give hcore hqueue hstat⟩, hframe s.sched _ rfl rfl hP⟩
      · exact Sound.refresh hframe hplace h hP hrefresh
      · obtain ⟨home, hinv⟩ := h
        obtain ⟨rest, hfront⟩ := hbar.front
        have hstill : (s.sched.popBar (config.partitionOf core) bar).isActive bar.layerId :=
          isSome_lookup_insert.mpr (.inl rfl)
        exact Sound.afterBar hframe hplace ⟨home, hinv.popBar hfront hbar.status⟩
          (hpop core bar rfl hbar) hstill hafter
      · obtain ⟨home, hinv⟩ := h
        exact ⟨⟨home, hinv.congr_lookup hmap⟩, hframe s.sched _ rfl rfl hP⟩
    · cases hs
  | finishTile core i =>
    unfold step at hs
    simp only at hs
    split at hs
    · rename_i hcore
      obtain ⟨tile, htile, hs⟩ := Option.bind_eq_some_iff.mp hs
      obtain ⟨sched, hsched, hs⟩ := Option.bind_eq_some_iff.mp hs
      obtain rfl := Option.some.inj hs
      exact Sound.finishTile hframe hplace hreport h hP hcore htile hsched
    · cases hs

theorem sound_init : Sound config (init config).running (init config).sched := by
  refine ⟨fun _ => 0, ?_, ?_, fun _ => rfl, ?_, ?_, ?_, ?_⟩
  · intro load hload
    obtain ⟨core, hcore, rfl⟩ := List.mem_map.mp hload
    exact List.mem_range.mp hcore
  · intro r hr
    cases hr
  · intro l t
    simp [init, Scheduler.init, queuedOf, runningOf]
  · intro p t ht
    cases ht
  · intro l stat hstat
    simp [init, Scheduler.init] at hstat
  · intro l _
    simp [init, Scheduler.init, queuedOf, runningOf]

theorem sound_step (h : Sound config s.running s.sched) (hs : step config type s a = some u) :
    Sound config u.running u.sched :=
  (step_keeps (P := fun _ => True) (fun _ _ _ _ _ => trivial)
    (fun _ _ _ _ _ _ _ _ _ _ _ _ _ _ => trivial) (fun _ _ _ => trivial)
    (fun _ _ _ _ => trivial) h trivial hs).1


end System

end OnnxSim
