import OnnxSim.Model.Once
import OnnxSim.Scheduler.Dependencies
import OnnxSim.Scheduler.Lossless

/-!
# The order of the layers in the spatial split

The spatial split makes the same moves on its board. It may lose tiles, so its accounts are
inequalities: a tile that is queued, running or reported has entered. A layer finishes when its
counter is used up, so it has had as many tiles reported as have entered.
-/

namespace OnnxSim

namespace HalfSplit

open Scheduler (ofLayer runningOf models_drop told_models)

def board (s : HalfSplit) : Board where
  models := s.requestQueue.map (·.model) ++ s.left
  active := s.isActive
  entered := s.entered
  retired := s.retired

/-- What holds between two calls. -/
structure Settled (n nextId : Nat) (running : Nat → List Tile) (scheduled : List Model)
    (s : HalfSplit) : Prop where
  accounts : Inv n nextId running s
  board : Board.Inv scheduled s.board
  placed : ∀ l t, ((s.layerQueue l).filterMap (·.tile)).count t + (runningOf n running l).count t +
    (s.reported l).count t ≤ (s.entered l).count t
  counters : ∀ l stat, s.activeLayersMap.lookup l = some stat → l ∉ s.retired →
    stat.finishedTiles = (s.reported l).length ∧ (s.entered l).length ≤ stat.totalTiles
  done : ∀ l ∈ s.retired, (s.entered l).Perm (s.reported l)

variable {n nextId : Nat} {running : Nat → List Tile} {scheduled : List Model} {s s' : HalfSplit}

/-! ## Refreshing -/

theorem Settled.dropFinished (h : Settled n nextId running scheduled s) :
    Settled n nextId running scheduled s.dropFinished :=
  ⟨h.accounts.dropFinished, h.board.move (.leave (models_drop s.requestQueue s.left)), h.placed,
    h.counters, h.done⟩

theorem Settled.skip {i : Nat} {r : Request} {op : Operation} {m : Model}
    (h : Settled n nextId running scheduled s) (hr : s.requestQueue[i]? = some r)
    (hm : r.model.getExecutableTile = some (op, m)) (hactive : s.isActive op.id) :
    Settled n nextId running scheduled
      { s with requestQueue := s.requestQueue.set i { r with model := m } } := by
  have hmodel := ((h.accounts.tagged r (List.mem_of_getElem? hr)).getExecutableTile hm).1
  exact ⟨h.accounts.requests (h.accounts.setModel hr hmodel),
    h.board.move (.take (models_perm hr s.left) hm hactive
      (models_set_perm hr s.left { r with model := m })), h.placed, h.counters, h.done⟩

/-- A layer starts. -/
theorem Settled.start {i : Nat} {r : Request} {op : Operation} {m : Model}
    (h : Settled n nextId running scheduled s) (hr : s.requestQueue[i]? = some r)
    (hempty : s.executableTileQueueTable r.requestId = [])
    (hm : r.model.getExecutableTile = some (op, m))
    (hnew : s.activeLayersMap.lookup op.id = none) :
    Settled n nextId running scheduled (enqueueLayer { s with
      requestQueue := s.requestQueue.set i { r with model := m.moveTiles op.id } }
      op r.requestId) := by
  have hmem : r.model ∈ s.board.models :=
    List.mem_append_left _ (List.mem_map_of_mem (List.mem_of_getElem? hr))
  obtain ⟨hmodel, hop⟩ :=
    (h.accounts.tagged r (List.mem_of_getElem? hr)).getExecutableTile hm
  have hset : Inv n nextId running { s with
      requestQueue := s.requestQueue.set i { r with model := m.moveTiles op.id } } :=
    h.accounts.requests (h.accounts.setModel hr (hmodel.moveTiles op.id))
  have hidle : s.isActive op.id = false := by simp [isActive, hnew]
  have hreported : op.id ∉ s.retired → s.entered op.id = [] ∧ s.reported op.id = [] := by
    intro hnot
    have hnone : s.entered op.id = [] := h.board.entered_eq_nil hmem (Board.taken_mem hm).1
      (by simp [HalfSplit.board, hidle]) hnot
    refine ⟨hnone, List.eq_nil_iff_forall_not_mem.mpr fun t ht => ?_⟩
    have hplaced := h.placed op.id t
    have hpos := List.count_pos_iff.mpr ht
    rw [hnone, List.count_nil] at hplaced
    omega
  refine ⟨hset.enqueueLayer hempty hnew (h.accounts.ids r (List.mem_of_getElem? hr)) hop,
    h.board.move (.start (models_perm hr s.left) hm hidle (Model.unloaded_moveTiles m op.id)
      (models_set_perm hr s.left { r with model := m.moveTiles op.id })
      fun l => Scheduler.isSome_lookup_insert), fun l t => ?_, fun l stat hstat hl => ?_,
    fun l hl => ?_⟩
  · rw [layerQueue_enqueue op (s := { s with
      requestQueue := s.requestQueue.set i { r with model := m.moveTiles op.id } }) hempty l]
    have hplaced := h.placed l t
    by_cases hlop : l = op.id
    · subst hlop
      rw [layerQueue_of_inactive hnew] at hplaced
      simp only [if_pos, entries_tiles, enqueueLayer, Function.update_self, List.count_append]
      simp only [List.filterMap_nil, List.count_nil] at hplaced
      omega
    · simp only [if_neg hlop, enqueueLayer, Function.update_of_ne hlop]
      exact hplaced
  · by_cases hlop : l = op.id
    · subst hlop
      obtain rfl := Option.some.inj ((AList.lookup_insert _).symm.trans hstat)
      obtain ⟨hentered, hnone⟩ := hreported hl
      have hlength : op.entries.length = op.moved + op.tiles.length := by
        simp [Operation.entries]
      refine ⟨?_, ?_⟩
      · change 0 = (s.reported op.id).length
        rw [hnone, List.length_nil]
      · change (Function.update s.entered op.id (s.entered op.id ++ op.tiles) op.id).length ≤
          (op.entries ++ s.executableTileQueueTable r.requestId).length
        rw [Function.update_self, hentered, hempty, List.nil_append, List.append_nil, hlength]
        omega
    · simp only [enqueueLayer, Function.update_of_ne hlop]
      exact h.counters l stat ((AList.lookup_insert_ne hlop).symm.trans hstat) hl
  · by_cases hlop : l = op.id
    · subst hlop
      simp only [enqueueLayer, Function.update_self, h.board.again hmem hm (.inr hl),
        List.append_nil]
      exact h.done op.id hl
    · simp only [enqueueLayer, Function.update_of_ne hlop]
      exact h.done l hl

theorem Settled.refresh (h : Settled n nextId running scheduled s) :
    Settled n nextId running scheduled s.refreshStatus :=
  refreshStatus_keeps (Q := Settled n nextId running scheduled) (fun _ h => h.dropFinished)
    (fun _ _ _ _ _ h hr hm hactive => h.skip hr hm hactive)
    (fun _ _ _ _ _ h hr hempty hm hnew => h.start hr hempty hm hnew) h

/-! ## Handing out and reporting -/

theorem count_issued {core : Nat} (hcore : core < n) (t : Tile) (l : Nat) (u : Tile) :
    (runningOf n (HalfSystem.issued running core (some t)) l).count u ≤
      ([t].filter (ofLayer l)).count u + (runningOf n running l).count u := by
  unfold HalfSystem.issued
  simp only
  split
  · exact (Scheduler.count_filter_of_perm (Queues.pool_push hcore) l u).le
  · exact Nat.le_add_left _ _

/-- A tile leaves its queue, to run or to be lost. -/
theorem Settled.getTile {rid core : Nat} {e : QueueEntry} {rest : List QueueEntry} {t : Tile}
    (h : Settled n nextId running scheduled s) (hcore : core < n)
    (hqueue : s.executableTileQueueTable rid = e :: rest) (ht : e.tile = some t)
    (hs : s' = { s with
      executableTileQueueTable := Function.update s.executableTileQueueTable rid rest
      activeLayersMap := s.activeLayersMap.insert t.layerId (s.layerStat t.layerId) }) :
    Settled n nextId (HalfSystem.issued running core (some t)) scheduled s' := by
  obtain ⟨⟨est, hest, herid⟩, htag⟩ := h.accounts.entries rid e (hqueue ▸ List.mem_cons_self)
  have hlayer : t.layerId = e.layerId := htag t ht
  have hmap := h.accounts.lookup_getTile hqueue ht hs
  have hpop := h.accounts.layerQueue_pop hqueue hmap (by rw [hs])
  have hactive : ∀ l, s'.isActive l ↔ s.isActive l := fun l => by simp only [isActive, hmap]
  refine ⟨(h.accounts.getTile hcore hqueue ht hs).1, h.board.congr (by rw [hs]; rfl)
    (by rw [hs]; rfl) (by rw [hs]; rfl) hactive, fun l u => ?_, fun l stat hstat hl => ?_,
    fun l hl => ?_⟩
  · have hplaced := h.placed l u
    have hissued : (runningOf n (HalfSystem.issued running core (some t)) l).count u ≤
        ([t].filter (ofLayer l)).count u + (runningOf n running l).count u :=
      count_issued hcore t l u
    have hfront : ([e].filter (·.layerId == l)).filterMap (·.tile) = [t].filter (ofLayer l) := by
      by_cases hl : e.layerId = l <;> simp [ofLayer, hlayer, hl, ht]
    rw [hpop l, List.filterMap_append, hfront, List.count_append] at hplaced
    have hentered : s'.entered l = s.entered l := by rw [hs]
    have hreported : s'.reported l = s.reported l := by rw [hs]
    rw [hentered, hreported]
    omega
  · rw [hs] at hl ⊢
    exact h.counters l stat ((hmap l).symm.trans hstat) hl
  · rw [hs] at hl ⊢
    exact h.done l hl

section report

variable {core i : Nat} {t : Tile} {stat : LayerStat} (h : Settled n nextId running scheduled s)
  (hcore : core < n) (ht : (running core)[i]? = some t)
  (hstat : s.activeLayersMap.lookup t.layerId = some stat)

include h hcore ht

/-- A layer that has finished has no tile running. -/
theorem Settled.not_retired : t.layerId ∉ s.retired := by
  intro hl
  have hrunning : t ∈ runningOf n running t.layerId :=
    List.mem_filter.mpr ⟨Queues.mem_pool.mpr ⟨core, hcore, List.mem_of_getElem? ht⟩, by simp [ofLayer]⟩
  have hpos := List.count_pos_iff.mpr hrunning
  have hplaced := h.placed t.layerId t
  rw [(h.done _ hl).count_eq] at hplaced
  omega

include hstat

/-- A tile is reported. -/
theorem Settled.report :
    Settled n nextId (Function.update running core ((running core).eraseIdx i)) scheduled
      { s.report t with
        activeLayersMap := s.activeLayersMap.insert t.layerId (counted stat) } := by
  have hreported : ∀ l, (s.report t).reported l = s.reported l ++ [t].filter (ofLayer l) :=
    fun l => Scheduler.update_snoc s.reported t l
  have hnew := h.not_retired hcore ht
  refine ⟨h.accounts.report hcore ht hstat, h.board.congr rfl rfl rfl fun l => ?_,
    fun l u => ?_, fun l st hst hl => ?_, fun l hl => ?_⟩
  · have hsome : ((s.activeLayersMap.insert t.layerId (counted stat)).lookup l).isSome ↔
        l = t.layerId ∨ (s.activeLayersMap.lookup l).isSome := Scheduler.isSome_lookup_insert
    change ((s.activeLayersMap.insert t.layerId (counted stat)).lookup l).isSome ↔
      (s.activeLayersMap.lookup l).isSome
    rw [hsome]
    constructor
    · rintro (rfl | hl)
      · simp [hstat]
      · exact hl
    · exact .inr
  · rw [layerQueue_report hstat]
    have hplaced := h.placed l u
    have hrunning := (runningOf_report hcore ht l).count_eq u
    rw [List.count_append] at hrunning
    simp only [hreported, List.count_append]
    have hentered : (s.report t).entered l = s.entered l := rfl
    rw [hentered]
    omega
  · by_cases hlt : l = t.layerId
    · subst hlt
      obtain rfl := Option.some.inj ((AList.lookup_insert _).symm.trans hst)
      obtain ⟨hfinished, htotal⟩ := h.counters _ stat hstat hl
      have hself : ([t].filter (ofLayer t.layerId)).length = 1 := by simp [ofLayer]
      refine ⟨?_, htotal⟩
      simp only [hreported, List.length_append, hself, counted, hfinished]
    · have hother : [t].filter (ofLayer l) = [] := by simp [ofLayer, Ne.symm hlt]
      simp only [hreported, hother, List.append_nil]
      exact h.counters l st ((AList.lookup_insert_ne hlt).symm.trans hst) hl
  · have hlt : l ≠ t.layerId := by
      rintro rfl
      exact hnew hl
    have hother : [t].filter (ofLayer l) = [] := by simp [ofLayer, Ne.symm hlt]
    simp only [hreported, hother, List.append_nil]
    exact h.done l hl

end report

/-- The layer finishes: as many of its tiles have been reported as have entered. -/
theorem Settled.retire {l : Nat} {stat : LayerStat} {requests : List Request}
    (h : Settled n nextId running scheduled s) (hstat : s.activeLayersMap.lookup l = some stat)
    (hlast : stat.remainTiles = 0) (hnew : l ∉ s.retired)
    (hrequests : ∀ r ∈ requests, r.model.Tagged ∧ r.requestId < nextId)
    (htold : List.Forall₂ (Scheduler.Told l stat.requestId) s.requestQueue requests) :
    Settled n nextId running scheduled (s.retire l stat requests) := by
  have herased : ∀ k, k ≠ l →
      (s.activeLayersMap.erase l).lookup k = s.activeLayersMap.lookup k :=
    fun k hk => AList.lookup_erase_ne hk
  have hnone : (s.activeLayersMap.erase l).lookup l = none := AList.lookup_erase l s.activeLayersMap
  refine ⟨h.accounts.retire hstat hlast hrequests, ?_, fun k t => ?_, fun k st hst hk => ?_,
    fun k hk => ?_⟩
  · refine h.board.move (.finish (by simp [HalfSplit.board, isActive, hstat]) hnew
      (List.rel_append (told_models htold) (List.forall₂_same.mpr fun _ _ => .inl rfl))
      fun k => ?_)
    by_cases hk : k = l
    · subst hk
      simp [isActive, HalfSplit.retire]
    · simp [HalfSplit.board, HalfSplit.retire, isActive, herased k hk, hk]
  · have hplaced := h.placed k t
    have hsub : ((s.retire l stat requests).layerQueue k).Sublist (s.layerQueue k) := by
      by_cases hk : k = l
      · subst hk
        rw [layerQueue_of_inactive hnone]
        exact List.nil_sublist _
      · cases hst : s.activeLayersMap.lookup k with
        | none =>
          rw [layerQueue_of_inactive ((herased k hk).trans hst)]
          exact List.nil_sublist _
        | some st =>
          rw [layerQueue_retire hk hst]
          split
          · exact List.nil_sublist _
          · exact List.Sublist.refl _
    have hcount := (hsub.filterMap (·.tile)).count_le t
    have hentered : (s.retire l stat requests).entered k = s.entered k := rfl
    have hreported : (s.retire l stat requests).reported k = s.reported k := rfl
    rw [hentered, hreported]
    omega
  · have hkl : k ≠ l := by
      rintro rfl
      cases hnone.symm.trans hst
    exact h.counters k st ((herased k hkl).symm.trans hst) fun hmem =>
      hk (List.mem_append_left _ hmem)
  · rcases List.mem_append.mp hk with hk | hk
    · exact h.done k hk
    · obtain rfl := List.mem_singleton.mp hk
      obtain ⟨hfinished, htotal⟩ := h.counters k stat hstat hnew
      obtain ⟨hsum, -⟩ := h.accounts.active k stat hstat
      have hsub : (s.reported k).Subperm (s.entered k) := by
        refine List.subperm_ext_iff.mpr fun t _ => ?_
        have hplaced := h.placed k t
        omega
      exact (hsub.perm_of_length_le (by omega)).symm

/-! ## What a handed out tile depends on -/

/-- Operation `y` is done: its flag is set, and the cores have reported its tiles. -/
structure Done (s : HalfSplit) (y : Operation) : Prop where
  finish : ∃ m ∈ s.board.models, ∃ y' ∈ m.operationMap, y'.id = y.id ∧ y'.finish = true
  retired : y.id ∈ s.retired
  reported : (s.reported y.id).Perm y.tiles

theorem Settled.producers_done (h : Settled n nextId running scheduled s) {rid : Nat}
    {e : QueueEntry} {rest : List QueueEntry} {tile : Tile}
    (hqueue : s.executableTileQueueTable rid = e :: rest) (htile : e.tile = some tile) :
    ∃ m ∈ scheduled, ∃ x ∈ m.operationMap, x.id = tile.layerId ∧
      ∀ y ∈ m.operationMap, ∀ t ∈ x.inputs, t ∈ y.outputs → s.Done y := by
  have he : e ∈ s.executableTileQueueTable rid := hqueue ▸ List.mem_cons_self
  obtain ⟨⟨stat, hstat, hrid⟩, htag⟩ := h.accounts.entries rid e he
  have hentered : s.entered tile.layerId ≠ [] := by
    have hqueued : tile ∈ (s.layerQueue tile.layerId).filterMap (·.tile) := by
      rw [htag tile htile, layerQueue_of_lookup hstat, hrid]
      exact List.mem_filterMap.mpr ⟨e, List.mem_filter.mpr ⟨he, by simp⟩, htile⟩
    have hpos := List.count_pos_iff.mpr hqueued
    have hplaced := h.placed tile.layerId tile
    intro hnil
    rw [hnil, List.count_nil] at hplaced
    omega
  obtain ⟨m, hm, hid⟩ := List.mem_flatMap.mp (h.board.known _ (.inr (.inr hentered)))
  obtain ⟨x, hx, hxid⟩ := Model.mem_ids.mp hid
  refine ⟨m, hm, x, hx, hxid, fun y hy t htx hty => ?_⟩
  obtain ⟨hretired, hall, hfinish⟩ :=
    h.board.producers_finished hm hx hy (hxid ▸ hentered) htx hty
  have hperm := (h.done y.id hretired).symm
  have hall' : s.entered y.id = y.tiles := hall
  rw [hall'] at hperm
  exact ⟨hfinish, hretired, hperm⟩

end HalfSplit

namespace HalfSystem

open HalfSplit

variable {config : SimulationConfig} {scheduled : List Model} {s u : HalfSystem} {a : System.Act}

theorem settled_init : HalfSplit.Settled config.numCores 0 (fun _ => []) [] {} := by
  refine ⟨init_inv, ⟨List.Perm.refl _, List.nodup_nil, ?_, fun _ m hm => (nomatch hm),
    fun m hm => (nomatch hm)⟩, fun l t => ?_, fun l stat hstat => (nomatch hstat),
    fun l hl => (nomatch hl)⟩
  · rintro l (hl | hl | hl)
    · cases hl
    · cases hl
    · exact absurd rfl hl
  · simp [layerQueue, Scheduler.runningOf]

theorem settled_step (h : s.sched.Settled config.numCores s.nextId s.running scheduled)
    (hmodels : ∀ m ∈ a.scheduled, ∃ init, m.Sound init [] [] ∧ m.Once [])
    (hids : ((scheduled ++ a.scheduled).flatMap Model.ids).Nodup)
    (hs : step config s a = some u) :
    u.sched.Settled config.numCores u.nextId u.running (scheduled ++ a.scheduled) := by
  cases a with
  | scheduleModel requestId m tagged =>
    unfold step at hs
    simp only at hs
    split at hs
    · rename_i hfresh
      obtain rfl := Option.some.inj hs
      obtain ⟨init, hsound, honce⟩ := hmodels m (by simp [System.Act.scheduled])
      obtain ⟨hpush, htable⟩ := schedule_push h.accounts hfresh tagged
      have hperm : ∀ r : Request, ((s.sched.requestQueue ++ [r]).map (·.model) ++
          s.sched.left).Perm (r.model :: s.sched.board.models) := by
        intro r
        rw [List.map_append, List.append_assoc]
        exact List.perm_middle
      refine Settled.refresh ⟨hpush,
        h.board.schedule hsound honce hids (hperm ⟨requestId, m⟩), fun l t => ?_, h.counters, h.done⟩
      have hplaced := h.placed l t
      unfold layerQueue at hplaced ⊢
      simp only [htable]
      exact hplaced
    · cases hs
  | getTile core =>
    simp only [System.Act.scheduled, List.append_nil]
    unfold step at hs
    simp only at hs
    split at hs
    · rename_i hcore
      obtain ⟨⟨tile, sched⟩, hget, hs⟩ := Option.bind_eq_some_iff.mp hs
      obtain rfl := Option.some.inj hs
      obtain ⟨r, hr, ⟨hempty, rfl, rfl⟩ | ⟨e, rest, t, hqueue, ht, rfl, hsched⟩⟩ :=
        getTile_cases hget
      · exact h
      · exact h.getTile hcore hqueue ht hsched
    · cases hs
  | finishTile core i =>
    simp only [System.Act.scheduled, List.append_nil]
    unfold step at hs
    simp only at hs
    split at hs
    · rename_i hcore
      obtain ⟨t, ht, hs⟩ := Option.bind_eq_some_iff.mp hs
      obtain ⟨sched, hsched, hs⟩ := Option.bind_eq_some_iff.mp hs
      obtain rfl := Option.some.inj hs
      obtain ⟨stat, hstat, hremain, hcases⟩ := finishTile_cases (s := s.sched.report t)
        (fun r hr => ⟨h.accounts.tagged r hr, h.accounts.ids r hr⟩) hsched
      have hreport := h.report hcore ht hstat
      rcases hcases with ⟨hmore, rfl⟩ | ⟨hlast, requests, hrequests, htold, rfl⟩
      · exact hreport.refresh
      · have hlookup := AList.lookup_insert (b := counted stat) (a := t.layerId)
          s.sched.activeLayersMap
        have hzero : (counted stat).remainTiles = 0 := by simp [counted, hlast]
        have hnew := h.not_retired hcore ht
        exact (hreport.retire hlookup hzero hnew hrequests htold).refresh
    · cases hs

theorem settled_run {h : List (HalfSystem × System.Act)} (run : Run config h s)
    (hmodels : ∀ m ∈ scheduledIn h, ∃ init, m.Sound init [] [] ∧ m.Once [])
    (hids : ((scheduledIn h).flatMap Model.ids).Nodup) :
    s.sched.Settled config.numCores s.nextId s.running (scheduledIn h) := by
  induction run with
  | nil => exact settled_init
  | @snoc h t a u run step ih =>
    have hsnoc : scheduledIn (h ++ [(t, a)]) = scheduledIn h ++ a.scheduled := by
      simp [scheduledIn]
    rw [hsnoc] at hmodels hids ⊢
    have hbefore := ih (fun m hm => hmodels m (List.mem_append_left _ hm)) (by
      rw [List.flatMap_append] at hids
      exact (List.nodup_append.mp hids).1)
    exact settled_step hbefore (fun m hm => hmodels m (List.mem_append_right _ hm)) hids step

end HalfSystem

/-! ## The four schedulers -/

/-- A tile that `get_tile` hands out is of an operation of a scheduled model, and every operation that
has an input of it among its outputs is done. `generate_id` gives the operations of all models
different identifiers. -/
theorem data_dependencies (config : SimulationConfig) :
    (∀ type h s, System.Run config type h s → (∀ m ∈ scheduledIn h, m.Initialised) →
      ((scheduledIn h).flatMap Model.ids).Nodup → ∀ core < config.numCores, ∀ tile sched,
      s.sched.getTile config type core = some (some tile, sched) →
      ∃ m ∈ scheduledIn h, ∃ x ∈ m.operationMap, x.id = tile.layerId ∧
        ∀ y ∈ m.operationMap, ∀ t ∈ x.inputs, t ∈ y.outputs → s.sched.Done y) ∧
    ∀ h s, HalfSystem.Run config h s → (∀ m ∈ scheduledIn h, m.Initialised) →
      ((scheduledIn h).flatMap Model.ids).Nodup → ∀ core < config.numCores, ∀ tile sched,
      s.sched.getTile core = some (some tile, sched) →
      ∃ m ∈ scheduledIn h, ∃ x ∈ m.operationMap, x.id = tile.layerId ∧
        ∀ y ∈ m.operationMap, ∀ t ∈ x.inputs, t ∈ y.outputs → s.sched.Done y := by
  constructor
  · intro type h s run hmodels hids core hcore tile sched hget
    have hsettled := System.settled_run run (fun m hm => (hmodels m hm).sound) hids
    rcases System.getTile_cases hsettled.accounts hcore hget with
      ⟨t, rest, stat, htile, hqueue, -, -⟩ | ⟨hnone, -⟩
    · obtain rfl := Option.some.inj htile
      exact hsettled.producers_done hcore (hqueue ▸ List.mem_cons_self)
    · cases hnone
  · intro h s run hmodels hids core _ tile sched hget
    have hsettled := HalfSystem.settled_run run (fun m hm => (hmodels m hm).sound) hids
    obtain ⟨r, -, ⟨-, hnone, -⟩ | ⟨e, rest, t, hqueue, ht, htile, -⟩⟩ :=
      HalfSplit.getTile_cases hget
    · cases hnone
    · obtain rfl := Option.some.inj htile
      exact hsettled.producers_done hqueue ht

/-- Two operations, the second of which reads the output of the first. -/
def chainNodes : GraphProto where
  inputs := [("x", [4])]
  initializers := []
  nodes := [{ opType := .plain, inputs := ["x"], outputs := [("y", [4])] },
    { opType := .plain, inputs := ["y"], outputs := [("z", [4])] }]
  ssa := by simp
  sources := by simp

def chainGraph : Graph where
  tensors := [{ id := 0, name := "x", dims := [4], produced := true, childNodes := [1] },
    { id := 2, name := "y", dims := [4], srcNode := 1, childNodes := [3] },
    { id := 4, name := "z", dims := [4], srcNode := 3 }]
  operations := [{ id := 1, inputs := [0], outputs := [2] }, { id := 3, inputs := [2], outputs := [4] }]
  nextId := 5

theorem build_chainNodes : Graph.build 0 chainNodes none [] = some chainGraph := rfl

def chainModel : Model :=
  chainGraph.toModel fun id => [{ status := .INITIALIZED, layerId := id }]

theorem chainModel_tagged : chainModel.Tagged := by
  unfold Model.Tagged chainModel
  decide

theorem chainModel_initialised : chainModel.Initialised :=
  ⟨chainGraph, _, .onnx build_chainNodes, rfl, rfl, rfl⟩

/-- The first operation runs; the next poll hands out the tile of the second. -/
def chainRun : List System.Act :=
  [.scheduleModel 0 chainModel chainModel_tagged, .getTile 0, .finishTile 0 0]

theorem data_dependencies_chain :
    (∃ h s tile, System.Run System.oneCore .simple h s ∧ tile.layerId = 3 ∧
      (∃ sched, s.sched.getTile System.oneCore .simple 0 = some (some tile, sched)) ∧
      ∃ m ∈ scheduledIn h, ∃ x ∈ m.operationMap, x.id = tile.layerId ∧
        ∀ y ∈ m.operationMap, ∀ t ∈ x.inputs, t ∈ y.outputs → s.sched.Done y) ∧
    ∃ h s tile, HalfSystem.Run System.oneCore h s ∧ tile.layerId = 3 ∧
      (∃ sched, s.sched.getTile 0 = some (some tile, sched)) ∧
      ∃ m ∈ scheduledIn h, ∃ x ∈ m.operationMap, x.id = tile.layerId ∧
        ∀ y ∈ m.operationMap, ∀ t ∈ x.inputs, t ∈ y.outputs → s.sched.Done y := by
  have hscheduled : ∀ {σ : Type} {h : List (σ × System.Act)}, h.map Prod.snd = chainRun →
      scheduledIn h = [chainModel] := by
    intro σ h hacts
    have hmap : scheduledIn h = (h.map Prod.snd).flatMap System.Act.scheduled := by
      unfold scheduledIn
      rw [List.flatMap_map]
    rw [hmap, hacts]
    rfl
  have hids : ([chainModel].flatMap Model.ids).Nodup := by decide
  have hmodels : ∀ m ∈ [chainModel], m.Initialised := fun m hm =>
    List.mem_singleton.mp hm ▸ chainModel_initialised
  constructor
  · have hfacts : (chainRun.foldlM (System.step System.oneCore .simple)
        (System.init System.oneCore)).bind (fun s =>
          (s.sched.getTile System.oneCore .simple 0).map fun r => r.1.map (·.layerId)) =
        some (some 3) := by decide +kernel
    obtain ⟨s, hs, hfacts⟩ := Option.bind_eq_some_iff.mp hfacts
    obtain ⟨⟨given, sched⟩, hget, hgiven⟩ := Option.map_eq_some_iff.mp hfacts
    obtain ⟨tile, rfl, hid⟩ := Option.map_eq_some_iff.mp hgiven
    obtain ⟨h, hacts, run⟩ := Machine.Run.of_foldlM hs
    exact ⟨h, s, tile, run, hid, ⟨sched, hget⟩, (data_dependencies System.oneCore).1 .simple h s run
      (hscheduled hacts ▸ hmodels) (hscheduled hacts ▸ hids) 0 (by decide) tile sched hget⟩
  · have hfacts : (chainRun.foldlM (HalfSystem.step System.oneCore) {}).bind (fun s =>
          (s.sched.getTile 0).map fun r => r.1.map (·.layerId)) = some (some 3) := by
      decide +kernel
    obtain ⟨s, hs, hfacts⟩ := Option.bind_eq_some_iff.mp hfacts
    obtain ⟨⟨given, sched⟩, hget, hgiven⟩ := Option.map_eq_some_iff.mp hfacts
    obtain ⟨tile, rfl, hid⟩ := Option.map_eq_some_iff.mp hgiven
    obtain ⟨h, hacts, run⟩ := Machine.Run.of_foldlM hs
    exact ⟨h, s, tile, run, hid, ⟨sched, hget⟩, (data_dependencies System.oneCore).2 h s run
      (hscheduled hacts ▸ hmodels) (hscheduled hacts ▸ hids) 0 (by decide) tile sched hget⟩

end OnnxSim
