import OnnxSim.Scheduler.Accounts

/-!
# Where the tiles are

Between two calls, every tile that has entered a partition queue is in exactly one place: waiting
there, in the queue of a core, handed out, reported, or a popped barrier; a layer is retired by the
call that accounts for its last tile; and a partition queue is empty or starts with a barrier
(`System.tile_accounting`).
-/

namespace OnnxSim

namespace Scheduler

variable {config : SimulationConfig} {type : SchedulerType} {running : Nat → List Tile}
  {s s' : Scheduler}

/-! ## Partition queues -/

/-- A partition queue is empty or starts with a barrier, and its tiles are of one layer. -/
structure Blocked (s : Scheduler) : Prop where
  front : ∀ p, ∀ t ∈ (s.executableTileQueue p).head?, t.status = .BAR
  oneLayer : ∀ p, ∀ t ∈ s.executableTileQueue p, ∀ t' ∈ s.executableTileQueue p,
    t.layerId = t'.layerId

theorem Blocked.congr (h : s.Blocked) (hqueue : s'.executableTileQueue = s.executableTileQueue) :
    s'.Blocked := by
  constructor
  · rw [hqueue]
    exact h.front
  · rw [hqueue]
    exact h.oneLayer

theorem issueTile_queue {remap : Nat → Nat} {offset p : Nat} {tile : Tile}
    (h : issueTile config remap offset p s tile = some s') :
    s'.executableTileQueue =
        Function.update s.executableTileQueue p (s.executableTileQueue p).tail ∧
      s'.retired = s.retired := by
  obtain ⟨top, -, h⟩ := Option.bind_eq_some_iff.mp h
  obtain ⟨⟨load, u⟩, hcount, h⟩ := Option.bind_eq_some_iff.mp h
  obtain rfl := Option.some.inj h
  obtain ⟨-, tileNum, insNum, rfl⟩ := countTile_eq_some hcount
  exact ⟨rfl, rfl⟩

/-- The loop stops at a barrier, or at the end of the queue. -/
theorem issueLoop_queue {remap : Nat → Nat} {offset p n : Nat}
    (hn : (s.executableTileQueue p).length ≤ n)
    (h : issueLoop config remap offset p n s = some s') :
    (∀ q, q ≠ p → s'.executableTileQueue q = s.executableTileQueue q) ∧
      s'.executableTileQueue p <:+ s.executableTileQueue p ∧
      ∀ t ∈ (s'.executableTileQueue p).head?, t.status = .BAR := by
  induction n generalizing s with
  | zero =>
    obtain rfl := Option.some.inj h
    have hnil : s.executableTileQueue p = [] := List.length_eq_zero_iff.mp (by omega)
    exact ⟨fun _ _ => rfl, List.suffix_rfl, by simp [hnil]⟩
  | succ n ih =>
    unfold issueLoop at h
    split at h
    · rename_i hnil
      obtain rfl := Option.some.inj h
      exact ⟨fun _ _ => rfl, List.suffix_rfl, by simp [hnil]⟩
    · rename_i tile rest hqueue
      split at h
      · rename_i hbar
        obtain rfl := Option.some.inj h
        exact ⟨fun _ _ => rfl, List.suffix_rfl, by simpa [hqueue] using hbar⟩
      · obtain ⟨u, hu, h⟩ := Option.bind_eq_some_iff.mp h
        obtain ⟨hqueues, -⟩ := issueTile_queue hu
        have htail : u.executableTileQueue p = rest := by
          rw [hqueues, Function.update_self, hqueue, List.tail_cons]
        obtain ⟨hother, hsuffix, hfront⟩ := ih (by rw [htail]; simpa [hqueue] using hn) h
        refine ⟨fun q hq => ?_, ?_, hfront⟩
        · rw [hother q hq, hqueues, Function.update_of_ne hq]
        · rw [htail] at hsuffix
          exact hsuffix.trans (hqueue ▸ List.suffix_cons tile rest)

/-- Whatever is issued from a queue with tiles of one layer, a barrier is left at the front. -/
theorem Blocked.issueLoop {remap : Nat → Nat} {offset p n : Nat}
    (hn : (s.executableTileQueue p).length ≤ n)
    (hothers : ∀ q, q ≠ p → ∀ t ∈ (s.executableTileQueue q).head?, t.status = .BAR)
    (hlayers : ∀ q, ∀ t ∈ s.executableTileQueue q, ∀ t' ∈ s.executableTileQueue q,
      t.layerId = t'.layerId)
    (h : issueLoop config remap offset p n s = some s') : s'.Blocked := by
  obtain ⟨hother, hsuffix, hfront⟩ := issueLoop_queue hn h
  constructor
  · intro q
    by_cases hq : q = p
    · exact hq ▸ hfront
    · rw [hother q hq]
      exact hothers q hq
  · intro q t ht t' ht'
    by_cases hq : q = p
    · subst hq
      exact hlayers q t (hsuffix.subset ht) t' (hsuffix.subset ht')
    · rw [hother q hq] at ht ht'
      exact hlayers q t ht t' ht'

theorem Blocked.refreshStatus (htagged : s.Tagged) (hblocked : s.Blocked)
    (h : Scheduler.refreshStatus config type s = some s') : s'.Blocked := by
  refine (refreshStatus_keeps (Q := fun s => s.Tagged ∧ s.Blocked) (fun _ hQ => hQ.1) ?_ ?_
    ⟨htagged, hblocked⟩ h).2
  · exact fun s requests rr calls left hQ ht => ⟨ht, hQ.2.congr rfl⟩
  · rintro s s' op requestId p remap offset ⟨htagged, hblocked⟩ hqueue - hop hlands h
    have hentered : (s.enqueueLayer op requestId p).executableTileQueue p = op.tiles := by
      simp [Scheduler.enqueueLayer, hqueue]
    have hother : ∀ q, q ≠ p →
        (s.enqueueLayer op requestId p).executableTileQueue q = s.executableTileQueue q :=
      fun q hq => Function.update_of_ne hq _ _
    refine ⟨?_, Blocked.issueLoop le_rfl (fun q hq => ?_) (fun q => ?_) h⟩
    · refine issueLoop_induction (Q := Tagged) ?_ hlands ?_ h
      · intro s s' remap offset p tile rest htagged _ _ _ h
        obtain ⟨top, -, h⟩ := Option.bind_eq_some_iff.mp h
        obtain ⟨⟨load, u⟩, hcount, h⟩ := Option.bind_eq_some_iff.mp h
        obtain rfl := Option.some.inj h
        obtain ⟨-, tileNum, insNum, rfl⟩ := countTile_eq_some hcount
        exact htagged
      · exact htagged
    · rw [hother q hq]
      exact hblocked.front q
    · by_cases hq : q = p
      · subst hq
        rw [hentered]
        exact fun t ht t' ht' => (hop t ht).trans (hop t' ht').symm
      · rw [hother q hq]
        exact hblocked.oneLayer q

/-! ## Retired layers -/

theorem refreshStatus_retired (htagged : s.Tagged)
    (h : Scheduler.refreshStatus config type s = some s') : s'.retired = s.retired := by
  refine (refreshStatus_induction (Q := fun u => u.Tagged ∧ u.retired = s.retired)
    (fun _ hQ => hQ.1) ?_ ?_ ?_ ⟨htagged, rfl⟩ h).2
  · exact fun _ _ _ _ _ hQ ht => ⟨ht, hQ.2⟩
  · exact fun _ _ _ _ hQ _ _ _ => hQ
  · intro u u' remap offset p tile rest hQ _ _ _ h
    obtain ⟨top, -, h⟩ := Option.bind_eq_some_iff.mp h
    obtain ⟨⟨load, v⟩, hcount, h⟩ := Option.bind_eq_some_iff.mp h
    obtain rfl := Option.some.inj h
    obtain ⟨-, tileNum, insNum, rfl⟩ := countTile_eq_some hcount
    exact hQ

/-- `finish_tile` counts the tile, retires the layer if it was the last one, and refreshes. -/
theorem finishTile_cases {l : Nat} (htagged : s.Tagged)
    (h : finishTile config type s l = some s') :
    ∃ stat requests map, s.activeLayersMap.lookup l = some stat ∧ stat.remainTiles ≠ 0 ∧
      (∀ r ∈ requests, r.model.Tagged) ∧
      Scheduler.refreshStatus config type { s with
        requestQueue := requests
        activeLayersMap := map
        retired := s.retired ++ if stat.remainTiles = 1 then [l] else [] } = some s' := by
  obtain ⟨stat, hstat, hremain, ⟨hmore, h⟩ | ⟨hone, u, hu, h⟩⟩ := finishTile_eq_some h
  · refine ⟨stat, s.requestQueue, s.activeLayersMap.insert l { stat with
      remainTiles := stat.remainTiles - 1, finishedTiles := stat.finishedTiles + 1 },
      hstat, hremain, htagged, ?_⟩
    rw [if_neg hmore, List.append_nil]
    exact h
  · obtain ⟨requests, rfl, hrequests⟩ :=
      setLayerFinish_eq_some (s := s.setLayerStat l _) htagged hu
    refine ⟨stat, requests, (s.activeLayersMap.insert l { stat with
      remainTiles := stat.remainTiles - 1, finishedTiles := stat.finishedTiles + 1 }).erase l,
      hstat, hremain, hrequests, ?_⟩
    rw [if_pos hone]
    exact h

theorem popBar_lookup {p : Nat} {bar : Tile} {stat : LayerStat}
    (hstat : s.activeLayersMap.lookup bar.layerId = some stat) :
    (s.popBar p bar).activeLayersMap.lookup bar.layerId = some { stat with
      launchedTiles := stat.launchedTiles + 1
      finishedTiles := stat.finishedTiles + 1
      remainTiles := stat.remainTiles - 1 } := by
  simp [Scheduler.popBar, layerStat_eq hstat]

/-- After a barrier has been popped its layer is retired, if no tile remains, or goes on. -/
theorem afterBar_cases {core p l : Nat} {stat : LayerStat} (htagged : s.Tagged)
    (hstat : s.activeLayersMap.lookup l = some stat)
    (h : afterBar config type s core p l = some s') :
    (stat.remainTiles = 0 ∧ ∃ requests map, (∀ r ∈ requests, r.model.Tagged) ∧
      Scheduler.refreshStatus config type { s with
        requestQueue := requests
        activeLayersMap := map
        retired := s.retired ++ [l] } = some s') ∨
    stat.remainTiles ≠ 0 ∧ issueTilePerCoreIn config (config.partitionMap p)
      ((config.partitionMap p).idxOf core) p s = some s' := by
  unfold afterBar at h
  simp only [layerStat_eq hstat] at h
  split at h
  · rename_i hremain
    obtain ⟨stat', requests, map, hstat', -, hrequests, h⟩ :=
      finishTile_cases (s := s.setLayerStat l _) htagged h
    have heq := (AList.lookup_insert _).symm.trans hstat'
    obtain rfl := Option.some.inj heq
    exact .inl ⟨hremain, requests, map, hrequests, h⟩
  · rename_i hremain
    exact .inr ⟨hremain, h⟩

end Scheduler

namespace System

open Scheduler

variable {config : SimulationConfig} {type : SchedulerType} {s u : System} {a : Act}

/-- `k` tiles of the layer wait in a partition queue, lie in the queues of the cores, or have been
handed out and not reported. -/
def Outstanding (config : SimulationConfig) (s : System) (l k : Nat) : Prop :=
  ∃ p, (∀ q, q ≠ p → waitingOf s.sched q l = []) ∧
    k = (waitingOf s.sched p l).length + (queuedOf config.numCores s.sched l).length +
      (runningOf config.numCores s.running l).length

/-- The step accounts for a tile of layer `l`: it reports one, or pops a barrier. -/
def Accounts (config : SimulationConfig) (s : System) (a : Act) (l : Nat) : Prop :=
  (∃ core i t, a = .finishTile core i ∧ (s.running core)[i]? = some t ∧ t.layerId = l) ∨
    ∃ core bar, a = .getTile core ∧ PopsBar config s core bar ∧ bar.layerId = l

theorem outstanding_unique {l k k' : Nat} (h : Outstanding config s l k)
    (h' : Outstanding config s l k') : k = k' := by
  obtain ⟨p, hp, rfl⟩ := h
  obtain ⟨q, hq, rfl⟩ := h'
  by_cases hpq : p = q
  · rw [hpq]
  · rw [hp q (Ne.symm hpq), hq p hpq]

/-- The counter of an active layer counts its outstanding tiles. -/
theorem outstanding_remain {l : Nat} {stat : LayerStat} (h : Sound config s.running s.sched)
    (hstat : s.sched.activeLayersMap.lookup l = some stat) :
    Outstanding config s l stat.remainTiles := by
  obtain ⟨home, hinv⟩ := h
  refine ⟨home l, fun q hq => List.filter_eq_nil_iff.mpr fun t ht heq => ?_, ?_⟩
  · have hl : t.layerId = l := by simpa [ofLayer] using heq
    exact hq (hl ▸ (hinv.queues q t ht).2.symm)
  · rw [(hinv.active l stat hstat).2, List.countP_eq_length_filter]
    rfl

/-- A tile that a core holds is of a layer with remaining tiles. -/
theorem running_remain {core : Nat} {t : Tile} (h : Sound config s.running s.sched)
    (hcore : core < config.numCores) (ht : t ∈ s.running core) :
    ∃ stat, s.sched.activeLayersMap.lookup t.layerId = some stat ∧ 0 < stat.remainTiles := by
  obtain ⟨home, hinv⟩ := h
  have hmem : t ∈ runningOf config.numCores s.running t.layerId :=
    List.mem_filter.mpr ⟨Queues.mem_pool.mpr ⟨core, hcore, ht⟩, by simp [ofLayer]⟩
  have hpos := List.length_pos_of_mem hmem
  cases hstat : s.sched.activeLayersMap.lookup t.layerId with
  | none =>
    rw [(hinv.inactive _ hstat).2] at hmem
    cases hmem
  | some stat =>
    have hremain := (hinv.active _ stat hstat).2
    exact ⟨stat, rfl, by omega⟩

theorem tagged_schedule {s : Scheduler} {requestId : Nat} {m : Model} (h : s.Tagged)
    (hm : m.Tagged) : Tagged { s with
      requestQueue := s.requestQueue ++ [{ requestId := requestId, model := m }] } := by
  intro r hr
  rcases List.mem_append.mp hr with hr | hr
  · exact h r hr
  · obtain rfl := List.mem_singleton.mp hr
    exact hm

/-- What follows a popped barrier: its layer goes on, or none of its tiles was left in the queue. -/
theorem blocked_afterBar {core : Nat} {bar : Tile} {sched : Scheduler}
    (hblocked : s.sched.Blocked) (hsound : Sound config s.running s.sched)
    (hbar : PopsBar config s core bar)
    (h : afterBar config type (s.sched.popBar (config.partitionOf core) bar) core
      (config.partitionOf core) bar.layerId = some sched) : sched.Blocked := by
  obtain ⟨home, hinv⟩ := hsound
  obtain ⟨rest, hqueue⟩ := hbar.front
  generalize config.partitionOf core = p at h hqueue
  obtain ⟨hactive, hhome⟩ := hinv.queues p bar (hqueue ▸ List.mem_cons_self)
  obtain ⟨stat, hstat⟩ := isActive_iff.mp hactive
  have hpopped : (s.sched.popBar p bar).executableTileQueue p = rest := by
    simp [Scheduler.popBar, hqueue]
  have hother : ∀ q, q ≠ p →
      (s.sched.popBar p bar).executableTileQueue q = s.sched.executableTileQueue q :=
    fun q hq => Function.update_of_ne hq _ _
  have hrest : ∀ t ∈ rest, t.layerId = bar.layerId := by
    intro t ht
    have ht' : t ∈ s.sched.executableTileQueue p := hqueue ▸ List.mem_cons_of_mem _ ht
    exact hblocked.oneLayer p t ht' bar (hqueue ▸ List.mem_cons_self)
  have hlayers : ∀ q, ∀ t ∈ (s.sched.popBar p bar).executableTileQueue q,
      ∀ t' ∈ (s.sched.popBar p bar).executableTileQueue q, t.layerId = t'.layerId := by
    intro q
    by_cases hq : q = p
    · subst hq
      rw [hpopped]
      exact fun t ht t' ht' => (hrest t ht).trans (hrest t' ht').symm
    · rw [hother q hq]
      exact hblocked.oneLayer q
  have hothers : ∀ q, q ≠ p →
      ∀ t ∈ ((s.sched.popBar p bar).executableTileQueue q).head?, t.status = .BAR := by
    intro q hq
    rw [hother q hq]
    exact hblocked.front q
  rcases afterBar_cases (s := s.sched.popBar p bar) hinv.tagged (popBar_lookup hstat) h with
    ⟨hremain, requests, map, hrequests, hrefresh⟩ | ⟨-, hissue⟩
  · refine Blocked.refreshStatus ?_ ?_ hrefresh
    · exact hrequests
    · -- the barrier was the last tile, so its queue is empty
      have hcount := (hinv.active _ stat hstat).2
      rw [hhome, hqueue, countP_eq_length_filter_singleton] at hcount
      have hall : rest.countP (ofLayer bar.layerId) = rest.length :=
        List.countP_eq_length.mpr fun t ht => by simp [ofLayer, hrest t ht]
      have hone : ([bar].filter (ofLayer bar.layerId)).length = 1 := by simp [ofLayer]
      have hnil : rest = [] := List.length_eq_zero_iff.mp (by simp only at hremain; omega)
      refine ⟨fun q => ?_, hlayers⟩
      by_cases hq : q = p
      · subst hq
        simp [hpopped, hnil]
      · exact hothers q hq
  · unfold issueTilePerCoreIn at hissue
    split at hissue
    · cases hissue
    · exact Blocked.issueLoop le_rfl hothers hlayers hissue

theorem blocked_step (hsound : Sound config s.running s.sched) (hblocked : s.sched.Blocked)
    (hs : step config type s a = some u) : u.sched.Blocked := by
  have htagged : s.sched.Tagged := hsound.choose_spec.tagged
  cases a with
  | scheduleModel requestId m tagged =>
    obtain ⟨sched, hsched, hs⟩ := Option.bind_eq_some_iff.mp hs
    obtain rfl := Option.some.inj hs
    unfold Scheduler.scheduleModel at hsched
    refine Blocked.refreshStatus (tagged_schedule htagged tagged) ?_ hsched
    exact hblocked.congr rfl
  | getTile core =>
    unfold step at hs
    simp only at hs
    split at hs
    · rename_i hcore
      obtain ⟨⟨tile, sched⟩, hget, hs⟩ := Option.bind_eq_some_iff.mp hs
      obtain rfl := Option.some.inj hs
      rcases getTile_cases hsound hcore hget with ⟨t, rest, stat, -, -, -, rfl⟩ |
        ⟨-, ⟨-, hrefresh⟩ | ⟨bar, hbar, hactive, hafter⟩ | ⟨-, map, -, rfl⟩⟩
      · exact hblocked.congr rfl
      · exact hblocked.refreshStatus htagged hrefresh
      · exact blocked_afterBar hblocked hsound hbar hafter
      · exact hblocked.congr rfl
    · cases hs
  | finishTile core i =>
    unfold step at hs
    simp only at hs
    split at hs
    · obtain ⟨tile, -, hs⟩ := Option.bind_eq_some_iff.mp hs
      obtain ⟨sched, hsched, hs⟩ := Option.bind_eq_some_iff.mp hs
      obtain rfl := Option.some.inj hs
      obtain ⟨stat, requests, map, -, -, hrequests, hrefresh⟩ :=
        finishTile_cases (s := s.sched.report tile) htagged hsched
      refine Blocked.refreshStatus ?_ ?_ hrefresh
      · exact hrequests
      · exact hblocked.congr rfl
    · cases hs

theorem blocked_init : (init config).sched.Blocked :=
  ⟨fun _ _ ht => (nomatch ht), fun _ _ ht => (nomatch ht)⟩

/-- What the step does to the log of retired layers: it retires the layer whose last tile it accounts
for, and no other. -/
def Retires (config : SimulationConfig) (s : System) (a : Act) (u : System) : Prop :=
  (∃ l, u.sched.retired = s.sched.retired ++ [l] ∧
    ∀ l', Accounts config s a l' ∧ Outstanding config s l' 1 ↔ l' = l) ∨
  u.sched.retired = s.sched.retired ∧ ∀ l', ¬ (Accounts config s a l' ∧ Outstanding config s l' 1)

theorem retires_of_accounts {l : Nat} {stat : LayerStat}
    (hsound : Sound config s.running s.sched) (hl : ∀ l', Accounts config s a l' ↔ l' = l)
    (hstat : s.sched.activeLayersMap.lookup l = some stat)
    (hretired : u.sched.retired =
      s.sched.retired ++ if stat.remainTiles = 1 then [l] else []) : Retires config s a u := by
  have houtstanding : Outstanding config s l 1 ↔ stat.remainTiles = 1 :=
    ⟨fun h => outstanding_unique (outstanding_remain hsound hstat) h,
      fun h => h ▸ outstanding_remain hsound hstat⟩
  by_cases hone : stat.remainTiles = 1
  · rw [if_pos hone] at hretired
    refine .inl ⟨l, hretired, fun l' => ?_⟩
    rw [hl]
    constructor
    · exact fun h => h.1
    · rintro rfl
      exact ⟨rfl, houtstanding.mpr hone⟩
  · rw [if_neg hone, List.append_nil] at hretired
    refine .inr ⟨hretired, fun l' h => ?_⟩
    rw [hl] at h
    obtain ⟨rfl, hlast⟩ := h
    exact hone (houtstanding.mp hlast)

theorem step_retires (hsound : Sound config s.running s.sched)
    (hs : step config type s a = some u) : Retires config s a u := by
  have htagged : s.sched.Tagged := hsound.choose_spec.tagged
  cases a with
  | scheduleModel requestId m tagged =>
    obtain ⟨sched, hsched, hs⟩ := Option.bind_eq_some_iff.mp hs
    obtain rfl := Option.some.inj hs
    unfold Scheduler.scheduleModel at hsched
    have hretired := refreshStatus_retired (tagged_schedule htagged tagged) hsched
    refine .inr ⟨hretired, fun l' => ?_⟩
    rintro ⟨⟨_, _, _, hact, -⟩ | ⟨_, _, hact, -⟩, -⟩ <;> cases hact
  | getTile core =>
    unfold step at hs
    simp only at hs
    split at hs
    · rename_i hcore
      obtain ⟨⟨tile, sched⟩, hget, hs⟩ := Option.bind_eq_some_iff.mp hs
      obtain rfl := Option.some.inj hs
      have hnone : (∀ bar, ¬ PopsBar config s core bar) →
          ∀ l', ¬ (Accounts config s (.getTile core) l' ∧ Outstanding config s l' 1) := by
        rintro hnone l' ⟨⟨_, _, _, hact, -⟩ | ⟨core', bar, hact, hbar, -⟩, -⟩
        · cases hact
        · obtain rfl : core = core' := by simpa using hact
          exact hnone bar hbar
      rcases getTile_cases hsound hcore hget with ⟨t, rest, stat, -, hqueue, -, rfl⟩ |
        ⟨-, ⟨hidle, hrefresh⟩ | ⟨bar, hbar, hactive, hafter⟩ | ⟨hidle, map, -, rfl⟩⟩
      · refine .inr ⟨rfl, hnone fun bar hbar => ?_⟩
        have hempty := hbar.coreQueue
        rw [hqueue] at hempty
        cases hempty
      · exact .inr ⟨refreshStatus_retired htagged hrefresh, hnone hidle⟩
      · obtain ⟨stat, hstat⟩ := isActive_iff.mp hactive
        refine retires_of_accounts (l := bar.layerId) hsound (fun l' => ?_) hstat ?_
        · constructor
          · rintro (⟨_, _, _, hact, -⟩ | ⟨core', bar', hact, hbar', rfl⟩)
            · cases hact
            · obtain rfl : core = core' := by simpa using hact
              obtain ⟨rest, hfront⟩ := hbar.front
              obtain ⟨rest', hfront'⟩ := hbar'.front
              rw [hfront] at hfront'
              rw [(List.cons.inj hfront').1]
          · rintro rfl
            exact .inr ⟨core, bar, rfl, hbar, rfl⟩
        · have hremain : stat.remainTiles ≠ 0 := by
            obtain ⟨rest, hfront⟩ := hbar.front
            obtain ⟨home, hinv⟩ := hsound
            obtain ⟨-, hhome⟩ := hinv.queues _ bar (hfront ▸ List.mem_cons_self)
            have hcount := (hinv.active _ stat hstat).2
            rw [hhome, hfront, countP_eq_length_filter_singleton] at hcount
            have hone : ([bar].filter (ofLayer bar.layerId)).length = 1 := by simp [ofLayer]
            omega
          rcases afterBar_cases (s := s.sched.popBar _ bar) htagged (popBar_lookup hstat) hafter
            with ⟨hlast, requests, map, hrequests, hrefresh⟩ | ⟨hmore, hissue⟩
          · rw [if_pos (by simp only at hlast; omega)]
            exact refreshStatus_retired (by exact hrequests) hrefresh
          · rw [if_neg (by simp only at hmore; omega), List.append_nil]
            refine issueTilePerCoreIn_induction (Q := fun v => v.retired = s.sched.retired) ?_ ?_
              hissue
            · exact fun _ _ _ _ _ _ _ hQ _ _ _ h => (issueTile_queue h).2.trans hQ
            · rfl
      · exact .inr ⟨rfl, hnone hidle⟩
    · cases hs
  | finishTile core i =>
    unfold step at hs
    simp only at hs
    split at hs
    · obtain ⟨tile, htile, hs⟩ := Option.bind_eq_some_iff.mp hs
      obtain ⟨sched, hsched, hs⟩ := Option.bind_eq_some_iff.mp hs
      obtain rfl := Option.some.inj hs
      obtain ⟨stat, requests, map, hstat, -, hrequests, hrefresh⟩ :=
        finishTile_cases (s := s.sched.report tile) htagged hsched
      have hstat' : s.sched.activeLayersMap.lookup tile.layerId = some stat := hstat
      have haccounts : ∀ l', Accounts config s (.finishTile core i) l' ↔ l' = tile.layerId := by
        intro l'
        constructor
        · rintro (⟨core', i', t, hact, ht, rfl⟩ | ⟨_, _, hact, -⟩)
          · obtain ⟨rfl, rfl⟩ : core = core' ∧ i = i' := by simpa using hact
            rw [Option.some.inj (htile.symm.trans ht)]
          · cases hact
        · rintro rfl
          exact .inl ⟨core, i, tile, rfl, htile, rfl⟩
      have hretired := refreshStatus_retired (by exact hrequests) hrefresh
      exact retires_of_accounts hsound haccounts hstat' hretired
    · cases hs

/-- The tiles of a layer by where they are: in the queue of partition `p`, in the queues of the
cores, handed out, reported, and the barriers popped. -/
def places (config : SimulationConfig) (s : System) (p l : Nat) : List Tile :=
  waitingOf s.sched p l ++ queuedOf config.numCores s.sched l ++
    runningOf config.numCores s.running l ++ s.sched.reported l ++
    (s.sched.taken l).filter fun t => !notBar t

theorem anyCore_perm {xs ys : List Tile} (h : xs.Perm ys) : (anyCore xs).Perm (anyCore ys) :=
  h.map _

/-- Each tile that has entered is in exactly one place. -/
theorem entered_perm {l : Nat} (h : Sound config s.running s.sched) :
    ∃ p, (∀ q, q ≠ p → waitingOf s.sched q l = []) ∧
      (anyCore (s.sched.entered l)).Perm (anyCore (places config s p l)) := by
  obtain ⟨home, hinv⟩ := h
  refine ⟨home l, fun q hq => List.filter_eq_nil_iff.mpr fun t ht heq => ?_, ?_⟩
  · have hl : t.layerId = l := by simpa [ofLayer] using heq
    exact hq (hl ▸ (hinv.queues q t ht).2.symm)
  · rw [← hinv.entered l]
    refine anyCore_perm ?_
    have htaken : ((s.sched.taken l).filter notBar).Perm (queuedOf config.numCores s.sched l ++
        runningOf config.numCores s.running l ++ s.sched.reported l) := by
      refine List.perm_iff_count.mpr fun t => ?_
      rw [List.count_append, List.count_append]
      exact hinv.located l t
    have hsplit := (List.filter_append_perm notBar (s.sched.taken l)).symm
    have hall := hsplit.trans (htaken.append_right _)
    have hplaces := (hall.append_right (waitingOf s.sched (home l) l)).trans
      List.perm_append_comm
    simpa [places, List.append_assoc] using hplaces

/-- The accounts of the tiles, in every run. The counter of an active layer counts the tiles that
wait, lie in core queues or are handed out; every tile that has entered is in exactly one place; a
tile that is handed out is of a layer with remaining tiles; a partition queue is empty or starts
with a barrier; and every further step retires a layer exactly when it accounts for its last tile. -/
theorem tile_accounting {h : List (System × Act)} (run : Run config type h s) :
    (∀ l stat, s.sched.activeLayersMap.lookup l = some stat →
      Outstanding config s l stat.remainTiles) ∧
    (∀ l, ∃ p, (∀ q, q ≠ p → waitingOf s.sched q l = []) ∧
      (anyCore (s.sched.entered l)).Perm (anyCore (places config s p l))) ∧
    (∀ core < config.numCores, ∀ t ∈ s.running core,
      ∃ stat, s.sched.activeLayersMap.lookup t.layerId = some stat ∧ 0 < stat.remainTiles) ∧
    (∀ p, ∀ t ∈ (s.sched.executableTileQueue p).head?, t.status = .BAR) ∧
    ∀ a u, step config type s a = some u → Retires config s a u := by
  have hinv : Sound config s.running s.sched ∧ s.sched.Blocked :=
    Machine.Run.invariant (P := fun s => Sound config s.running s.sched ∧ s.sched.Blocked) run
      ⟨sound_init, blocked_init⟩
      fun _ _ _ hinv hs => ⟨sound_step hinv.1 hs, blocked_step hinv.1 hinv.2 hs⟩
  obtain ⟨hsound, hblocked⟩ := hinv
  exact ⟨fun l stat hstat => outstanding_remain hsound hstat, fun l => entered_perm hsound,
    fun core hcore t ht => running_remain hsound hcore ht, hblocked.front,
    fun a u hs => step_retires hsound hs⟩

/-- One core. -/
def oneCore : SimulationConfig := { numCores := 1, dramChannels := 1, dramReqSize := 32 }

/-- A layer of one tile and a barrier. -/
def tileAndBar : Model :=
  { operationMap := [{ id := 1, tiles := [{ status := .INITIALIZED, layerId := 1 },
      { status := .BAR, layerId := 1 }] }]
    executableLayer := [1] }

theorem tileAndBar_tagged : tileAndBar.Tagged := by
  unfold Model.Tagged tileAndBar
  decide

/-- Once the tile has been reported, the next poll pops the barrier and retires the layer. -/
theorem tile_accounting_bar : ∃ h s u, Run oneCore .simple h s ∧
    step oneCore .simple s (.getTile 0) = some u ∧ u.sched.retired = [1] ∧
    Retires oneCore s (.getTile 0) u := by
  have hfacts : (([.scheduleModel 0 tileAndBar tileAndBar_tagged, .getTile 0, .finishTile 0 0] :
      List Act).foldlM (step oneCore .simple) (init oneCore)).bind (fun s =>
        (step oneCore .simple s (.getTile 0)).map fun u => u.sched.retired) = some [1] := by
    decide +kernel
  obtain ⟨s, hs, hfacts⟩ := Option.bind_eq_some_iff.mp hfacts
  obtain ⟨u, hu, hretired⟩ := Option.map_eq_some_iff.mp hfacts
  obtain ⟨h, -, run⟩ := Machine.Run.of_foldlM hs
  have run : Run oneCore .simple h s := run
  obtain ⟨-, -, -, -, hretires⟩ := tile_accounting run
  exact ⟨h, s, u, run, hu, hretired, hretires _ u hu⟩

end System

end OnnxSim
