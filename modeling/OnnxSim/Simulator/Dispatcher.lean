import OnnxSim.Scheduler.HalfDependencies
import OnnxSim.Scheduler.Reports
import OnnxSim.Simulator.Cycle

/-!
# The schedulers as a simulator drives them

To a simulator a scheduler is its four calls. `Dispatcher` adds the tiles that have been handed out and
the tiles that have been reported, and says what holds of them in every run (`DispatchBooks`): what
a tile that has been handed out depends on is done, and a scheduler that is empty has seen all tiles of
all its models reported. All four schedulers are dispatchers (`Dispatcher.create`).
-/

namespace OnnxSim

open Scheduler (anyCore notBar runningOf ofLayer)

/-- The tiles of operation `y` have been reported, each once; barriers are never handed out. -/
def Reported (reported : Nat → List Tile) (y : Operation) : Prop :=
  (anyCore (reported y.id)).Perm (anyCore (y.tiles.filter notBar))

/-- A tile that has been handed out is one of an operation of a model, and the operations whose outputs
that operation reads are done. When no request is left, nothing is running and everything is done. -/
structure DispatchBooks (n : Nat) (models : List Model) (idle : Bool) (running reported : Nat → List Tile) :
    Prop where
  handedOut : ∀ core < n, ∀ tile ∈ running core, ∃ m ∈ models, ∃ x ∈ m.operationMap,
    x.id = tile.layerId ∧ (∃ t ∈ x.tiles, t.onCore 0 = tile.onCore 0) ∧
    ∀ y ∈ m.operationMap, ∀ t ∈ x.inputs, t ∈ y.outputs → Reported reported y
  idle : idle = true → (∀ core < n, running core = []) ∧
    ∀ m ∈ models, ∀ y ∈ m.operationMap, Reported reported y

/-- A scheduler with the tiles that it has handed out, `n` cores and request identifiers from `nextId`
on. -/
structure Dispatcher (n : Nat) (sched : SchedulerInterface) where
  State : Type
  init : State
  step : State → System.Act → Option State
  /-- What the simulator sees. -/
  scheduler : State → sched.State
  running : State → Nat → List Tile
  reported : State → Nat → List Tile
  nextId : State → Nat
  init_eq : scheduler init = sched.init ∧ (∀ i, running init i = []) ∧
    (∀ l, reported init l = []) ∧ nextId init = 0
  scheduleModel : ∀ {t requestId m u}, m.Tagged → nextId t ≤ requestId →
    sched.scheduleModel (scheduler t) requestId m = some u → ∃ hm t',
    step t (.scheduleModel requestId m hm) = some t' ∧ scheduler t' = u ∧ running t' = running t ∧
      reported t' = reported t ∧ nextId t' ≤ requestId + 1
  getTile : ∀ {t core tile u}, core < n → sched.getTile (scheduler t) core = some (tile, u) → ∃ t',
    step t (.getTile core) = some t' ∧ scheduler t' = u ∧ reported t' = reported t ∧
      nextId t' = nextId t ∧ ∃ given : List Tile,
        (∀ x, tile = some x → x.status = .INITIALIZED → given = [x]) ∧ (tile = none → given = []) ∧
        running t' = Function.update (running t) core (running t core ++ given)
  finishTile : ∀ {t core i tile u}, core < n → (running t core)[i]? = some tile →
    sched.finishTile (scheduler t) tile.layerId = some u → ∃ t',
    step t (.finishTile core i) = some t' ∧ scheduler t' = u ∧ nextId t' = nextId t ∧
      running t' = Function.update (running t) core ((running t core).eraseIdx i) ∧
      reported t' =
        Function.update (reported t) tile.layerId (reported t tile.layerId ++ [tile])
  dispatchBooks : ∀ {h t}, Machine.Run (Machine.partialDet step) init h t →
    (∀ m ∈ scheduledIn h, m.Initialised) → ((scheduledIn h).flatMap Model.ids).Nodup →
    DispatchBooks n (scheduledIn h) (sched.isEmpty (scheduler t)) (running t) (reported t)

/-! ## The queues of tiles -/

theorem give_eq_update (running : Nat → List Tile) (core : Nat) (tile : Option Tile) :
    System.give running core tile =
      Function.update running core (running core ++ tile.toList) := by
  cases tile with
  | none => simp [System.give]
  | some t => rfl

namespace Board

variable {scheduled : List Model} {b : Board}

/-- An operation of which a tile has entered, with all its tiles. -/
theorem Inv.entered_eq (h : Inv scheduled b) {l : Nat} (hl : b.entered l ≠ []) :
    ∃ m ∈ scheduled, ∃ x ∈ m.operationMap, x.id = l ∧ b.entered l = x.tiles := by
  obtain ⟨m, hm, hid⟩ := List.mem_flatMap.mp (h.known l (.inr (.inr hl)))
  obtain ⟨x, hx, rfl⟩ := Model.mem_ids.mp hid
  obtain ⟨m', hm', hgraph⟩ := h.exists_model hm
  obtain ⟨init, returned, finished, ht⟩ := h.tracked m' hm'
  have hwires : Model.wires x ∈ m'.graph := hgraph ▸ List.mem_map_of_mem hx
  obtain ⟨x', hx', hwx⟩ := List.mem_map.mp hwires
  obtain ⟨hidx, -, -⟩ := Model.wires_eq hwx
  have htaken : x'.id ∈ returned := by
    by_contra hnot
    exact hl (hidx ▸ (ht.before x' hx' hnot).1)
  obtain ⟨hall, -⟩ := ht.after x' hx' htaken
  rw [hidx, tilesOf_eq h.ids hm hx] at hall
  exact ⟨m, hm, x, hx, rfl, hall⟩

/-- When all models have finished, every operation has, and all its tiles had entered. -/
theorem Inv.all_finished (h : Inv scheduled b) (hall : ∀ m ∈ b.models, m.checkFinish) {m : Model}
    (hm : m ∈ scheduled) {y : Operation} (hy : y ∈ m.operationMap) :
    y.id ∈ b.retired ∧ b.entered y.id = y.tiles := by
  obtain ⟨m', hm', hgraph⟩ := h.exists_model hm
  obtain ⟨init, returned, finished, ht⟩ := h.tracked m' hm'
  have hwires : Model.wires y ∈ m'.graph := hgraph ▸ List.mem_map_of_mem hy
  obtain ⟨y', hy', hwy⟩ := List.mem_map.mp hwires
  obtain ⟨hidy, -, -⟩ := Model.wires_eq hwy
  have hfinish : y'.finish = true := List.all_eq_true.mp (hall m' hm') y' hy'
  have hfinished := (ht.sound.finish y' hy').mp hfinish
  obtain ⟨hentered, -⟩ := ht.after y' hy' (ht.sound.taken _ hfinished)
  rw [hidy, tilesOf_eq h.ids hm hy] at hentered
  exact ⟨hidy ▸ ht.retired _ hfinished, hentered⟩

end Board

namespace System

variable {config : SimulationConfig} {type : SchedulerType} {h : List (System × Act)} {t : System}

theorem left_finished (run : Run config type h t) : ∀ m ∈ t.sched.left, m.checkFinish := by
  refine Machine.Run.invariant (P := fun t => ∀ m ∈ t.sched.left, m.checkFinish) run
    (fun m hm => (nomatch hm)) fun t a u ht hs => ?_
  obtain ⟨gone, hleft, hgone, -, -⟩ := step_moves hs
  intro m hm
  have hleft' : u.sched.left = t.sched.left ++ gone := hleft
  rw [hleft', List.mem_append] at hm
  exact hm.elim (ht m) (hgone m)

/-- A tile that is running has entered, as one of its layer. -/
theorem mem_entered_of_running {core : Nat} {tile : Tile}
    (hsound : Scheduler.Sound config t.running t.sched) (hcore : core < config.numCores)
    (htile : tile ∈ t.running core) :
    ∃ u ∈ t.sched.entered tile.layerId, u.onCore 0 = tile.onCore 0 := by
  obtain ⟨home, hinv⟩ := hsound
  have hrunning : tile ∈ runningOf config.numCores t.running tile.layerId :=
    List.mem_filter.mpr ⟨Queues.mem_pool.mpr ⟨core, hcore, htile⟩, by simp [ofLayer]⟩
  have hlocated := hinv.located tile.layerId tile
  have hpos := List.count_pos_iff.mpr hrunning
  have htaken : tile ∈ t.sched.taken tile.layerId := by
    refine List.mem_of_mem_filter (p := notBar) (List.count_pos_iff.mp ?_)
    omega
  have hmem : tile.onCore 0 ∈ anyCore (t.sched.taken tile.layerId ++
      Scheduler.waitingOf t.sched (home tile.layerId) tile.layerId) :=
    List.mem_map_of_mem (List.mem_append_left _ htaken)
  rw [hinv.entered] at hmem
  exact List.mem_map.mp hmem

theorem dispatchBooks (run : Run config type h t) (hmodels : ∀ m ∈ scheduledIn h, m.Initialised)
    (hids : ((scheduledIn h).flatMap Model.ids).Nodup) :
    DispatchBooks config.numCores (scheduledIn h) t.sched.requestQueue.isEmpty t.running
      t.sched.reported := by
  have hsettled := settled_run run (fun m hm => (hmodels m hm).sound) hids
  refine ⟨fun core hcore tile htile => ?_, fun hidle => ?_⟩
  · obtain ⟨u, hu, hsame⟩ := mem_entered_of_running hsettled.accounts hcore htile
    have hentered : t.sched.entered tile.layerId ≠ [] := List.ne_nil_of_mem hu
    obtain ⟨m, hm, x, hx, hid, htiles⟩ := hsettled.board.entered_eq hentered
    refine ⟨m, hm, x, hx, hid, ⟨u, htiles ▸ hu, hsame⟩, fun y hy s hsx hsy => ?_⟩
    obtain ⟨hretired, hall, -⟩ :=
      hsettled.board.producers_finished hm hx hy (hid ▸ hentered) hsx hsy
    have hperm := hsettled.reported_perm hretired
    have hall' : t.sched.entered y.id = y.tiles := hall
    rwa [hall'] at hperm
  · have hfinished : ∀ m ∈ t.sched.board.models, m.checkFinish := by
      intro m hm
      have hqueue : t.sched.requestQueue = [] := List.isEmpty_iff.mp hidle
      simp only [Scheduler.board, hqueue, List.map_nil, List.nil_append] at hm
      exact left_finished run m hm
    have hdone : ∀ m ∈ scheduledIn h, ∀ y ∈ m.operationMap,
        y.id ∈ t.sched.retired ∧ t.sched.entered y.id = y.tiles :=
      fun m hm y hy => hsettled.board.all_finished hfinished hm hy
    refine ⟨fun core hcore => List.eq_nil_iff_forall_not_mem.mpr fun tile htile => ?_,
      fun m hm y hy => ?_⟩
    · obtain ⟨u, hu, -⟩ := mem_entered_of_running hsettled.accounts hcore htile
      obtain ⟨m, hm, x, hx, hid, -⟩ := hsettled.board.entered_eq (List.ne_nil_of_mem hu)
      obtain ⟨stat, hstat, hpos⟩ := running_remain hsettled.accounts hcore htile
      have hzero := hsettled.done _ (hid ▸ (hdone m hm x hx).1) stat hstat
      omega
    · obtain ⟨hretired, hall⟩ := hdone m hm y hy
      have hperm := hsettled.reported_perm hretired
      rwa [hall] at hperm

section queues

variable {u : Scheduler} {log : Nat → List Tile}

theorem step_scheduleModel {requestId : Nat} {m : Model} (hm : m.Tagged)
    (hu : (t.sched.relogged log).scheduleModel config type requestId m = some u) :
    ∃ t', step config type t (.scheduleModel requestId m hm) = some t' ∧
      t'.sched.relogged log = u ∧ t'.running = t.running ∧ t'.sched.reported = t.sched.reported := by
  obtain ⟨v, hv, hlog, hreported⟩ := Scheduler.of_relogged
    (f := fun s => s.scheduleModel config type requestId m)
    (fun log s => Scheduler.scheduleModel_relogged s requestId m) hu
  refine ⟨{ t with sched := v }, ?_, hlog, rfl, hreported⟩
  simp only [step, hv, Option.bind_eq_bind, Option.bind_some]

theorem step_getTile {core : Nat} {tile : Option Tile} (hcore : core < config.numCores)
    (hu : (t.sched.relogged log).getTile config type core = some (tile, u)) :
    ∃ t', step config type t (.getTile core) = some t' ∧ t'.sched.relogged log = u ∧
      t'.sched.reported = t.sched.reported ∧
      t'.running = Function.update t.running core (t.running core ++ tile.toList) := by
  obtain ⟨v, hv, hlog, hreported⟩ := Scheduler.getTile_of_relogged hu
  refine ⟨{ sched := v, running := give t.running core tile }, ?_, hlog, hreported,
    give_eq_update _ _ _⟩
  simp only [step, hcore, if_true, hv, Option.bind_eq_bind, Option.bind_some]

theorem step_finishTile {core i : Nat} {tile : Tile} (hcore : core < config.numCores)
    (htile : (t.running core)[i]? = some tile)
    (hu : (t.sched.relogged log).finishTile config type tile.layerId = some u) :
    ∃ t', step config type t (.finishTile core i) = some t' ∧ t'.sched.relogged log = u ∧
      t'.running = Function.update t.running core ((t.running core).eraseIdx i) ∧
      t'.sched.reported = Function.update t.sched.reported tile.layerId
        (t.sched.reported tile.layerId ++ [tile]) := by
  have hu' : ((t.sched.report tile).relogged log).finishTile config type tile.layerId = some u := hu
  obtain ⟨v, hv, hlog, hreported⟩ := Scheduler.of_relogged
    (f := fun s => s.finishTile config type tile.layerId)
    (fun log s => Scheduler.finishTile_relogged s tile.layerId) hu'
  refine ⟨{ sched := v
            running := Function.update t.running core ((t.running core).eraseIdx i) }, ?_, hlog, rfl,
    hreported⟩
  simp only [step, hcore, if_true, htile, hv, Option.bind_eq_bind, Option.bind_some]

end queues

end System

/-! ## The spatial split -/

namespace HalfSystem

variable {config : SimulationConfig} {h : List (HalfSystem × System.Act)} {t u : HalfSystem}
  {log : Nat → List Tile}

/-- What is running and what has been reported was issued. -/
structure AllIssued (t : HalfSystem) : Prop where
  running : ∀ core, ∀ x ∈ t.running core, x.status = .INITIALIZED
  reported : ∀ l, ∀ x ∈ t.sched.reported l, x.status = .INITIALIZED

theorem left_finished (run : Run config h t) : ∀ m ∈ t.sched.left, m.checkFinish := by
  refine Machine.Run.invariant (P := fun t => ∀ m ∈ t.sched.left, m.checkFinish) run
    (fun m hm => (nomatch hm)) fun t a u ht hs => ?_
  obtain ⟨gone, hleft, hgone, -, -⟩ := step_moves hs
  intro m hm
  have hleft' : u.sched.left = t.sched.left ++ gone := hleft
  rw [hleft', List.mem_append] at hm
  exact hm.elim (ht m) (hgone m)

theorem AllIssued.step {a : System.Act} (h : AllIssued t) (hs : step config t a = some u) :
    AllIssued u := by
  cases a with
  | scheduleModel requestId m tagged =>
    unfold HalfSystem.step at hs
    simp only at hs
    split at hs
    · obtain rfl := Option.some.inj hs
      exact ⟨h.running, by rw [HalfSplit.scheduleModel_reported]; exact h.reported⟩
    · cases hs
  | getTile core =>
    unfold HalfSystem.step at hs
    simp only at hs
    split at hs
    · obtain ⟨⟨tile, sched⟩, hget, hs⟩ := Option.bind_eq_some_iff.mp hs
      obtain rfl := Option.some.inj hs
      have hself : (t.sched.relogged t.sched.reported).getTile core = some (tile, sched) := hget
      obtain ⟨v, hv, -, hreported⟩ := HalfSplit.getTile_of_relogged hself
      obtain rfl : v = sched := (Prod.mk.inj (Option.some.inj (hv.symm.trans hget))).2
      refine ⟨fun i x hx => ?_, hreported ▸ h.reported⟩
      cases tile with
      | none => exact h.running i x hx
      | some tl =>
        simp only [issued] at hx
        split at hx
        · rename_i hstatus
          by_cases hi : i = core
          · subst hi
            rw [Function.update_self, List.mem_append, List.mem_singleton] at hx
            rcases hx with hx | rfl
            · exact h.running i x hx
            · exact hstatus
          · rw [Function.update_of_ne hi] at hx
            exact h.running i x hx
        · exact h.running i x hx
    · cases hs
  | finishTile core i =>
    unfold HalfSystem.step at hs
    simp only at hs
    split at hs
    · obtain ⟨tile, htile, hs⟩ := Option.bind_eq_some_iff.mp hs
      obtain ⟨sched, hsched, hs⟩ := Option.bind_eq_some_iff.mp hs
      obtain rfl := Option.some.inj hs
      have hself : ((t.sched.report tile).relogged (t.sched.report tile).reported).finishTile
          tile.layerId = some sched := hsched
      obtain ⟨v, hv, -, hreported⟩ := HalfSplit.finishTile_of_relogged hself
      obtain rfl : v = sched := Option.some.inj (hv.symm.trans hsched)
      refine ⟨fun j x hx => ?_, fun l x hx => ?_⟩
      · by_cases hj : j = core
        · subst hj
          simp only [Function.update_self] at hx
          exact h.running j x (List.mem_of_mem_eraseIdx hx)
        · simp only [Function.update_of_ne hj] at hx
          exact h.running j x hx
      · simp only [hreported] at hx
        by_cases hl : l = tile.layerId
        · subst hl
          simp only [HalfSplit.report, Function.update_self, List.mem_append,
            List.mem_singleton] at hx
          rcases hx with hx | rfl
          · exact h.reported _ x hx
          · exact h.running core _ (List.mem_of_getElem? htile)
        · simp only [HalfSplit.report, Function.update_of_ne hl] at hx
          exact h.reported l x hx
    · cases hs

theorem allIssued (run : Run config h t) : AllIssued t :=
  Machine.Run.invariant (P := AllIssued) run
    ⟨fun _ _ hx => (nomatch hx), fun _ _ hx => (nomatch hx)⟩ fun _ _ _ ht hs => ht.step hs

theorem dispatchBooks (run : Run config h t) (hmodels : ∀ m ∈ scheduledIn h, m.Initialised)
    (hids : ((scheduledIn h).flatMap Model.ids).Nodup) :
    DispatchBooks config.numCores (scheduledIn h) t.sched.requestQueue.isEmpty t.running
      t.sched.reported := by
  have hsettled := settled_run run (fun m hm => (hmodels m hm).sound) hids
  have hissued := allIssued run
  -- a barrier is never issued, so an operation that is done has none
  have hreported : ∀ y : Operation, y.id ∈ t.sched.retired → t.sched.entered y.id = y.tiles →
      Reported t.sched.reported y := by
    intro y hretired hall
    have hperm := hsettled.done y.id hretired
    rw [hall] at hperm
    have hbars : y.tiles.filter notBar = y.tiles := by
      apply List.filter_eq_self.mpr
      intro x hx
      simp [notBar, hissued.reported y.id x (hperm.subset hx)]
    unfold Reported
    rw [hbars]
    exact hperm.symm.map _
  have hentered : ∀ core < config.numCores, ∀ tile ∈ t.running core,
      tile ∈ t.sched.entered tile.layerId := by
    intro core hcore tile htile
    have hrunning : tile ∈ runningOf config.numCores t.running tile.layerId :=
      List.mem_filter.mpr ⟨Queues.mem_pool.mpr ⟨core, hcore, htile⟩, by simp [ofLayer]⟩
    have hplaced := hsettled.placed tile.layerId tile
    have hpos := List.count_pos_iff.mpr hrunning
    exact List.count_pos_iff.mp (by omega)
  refine ⟨fun core hcore tile htile => ?_, fun hidle => ?_⟩
  · have hmem := hentered core hcore tile htile
    have hne : t.sched.entered tile.layerId ≠ [] := List.ne_nil_of_mem hmem
    obtain ⟨m, hm, x, hx, hid, htiles⟩ := hsettled.board.entered_eq hne
    refine ⟨m, hm, x, hx, hid, ⟨tile, htiles ▸ hmem, rfl⟩, fun y hy s hsx hsy => ?_⟩
    obtain ⟨hretired, hall, -⟩ :=
      hsettled.board.producers_finished hm hx hy (hid ▸ hne) hsx hsy
    exact hreported y hretired hall
  · have hfinished : ∀ m ∈ t.sched.board.models, m.checkFinish := by
      intro m hm
      have hqueue : t.sched.requestQueue = [] := List.isEmpty_iff.mp hidle
      simp only [HalfSplit.board, hqueue, List.map_nil, List.nil_append] at hm
      exact left_finished run m hm
    have hdone : ∀ m ∈ scheduledIn h, ∀ y ∈ m.operationMap,
        y.id ∈ t.sched.retired ∧ t.sched.entered y.id = y.tiles :=
      fun m hm y hy => hsettled.board.all_finished hfinished hm hy
    refine ⟨fun core hcore => List.eq_nil_iff_forall_not_mem.mpr fun tile htile => ?_,
      fun m hm y hy => hreported y (hdone m hm y hy).1 (hdone m hm y hy).2⟩
    have hmem := hentered core hcore tile htile
    obtain ⟨m, hm, x, hx, hid, -⟩ := hsettled.board.entered_eq (List.ne_nil_of_mem hmem)
    obtain ⟨i, hi⟩ := List.mem_iff_getElem?.mp htile
    exact hsettled.not_retired hcore hi (hid ▸ (hdone m hm x hx).1)

theorem step_scheduleModel {requestId : Nat} {m : Model} (hm : m.Tagged)
    (hid : t.nextId ≤ requestId) :
    ∃ t', step config t (.scheduleModel requestId m hm) = some t' ∧
      t'.sched.relogged log = (t.sched.relogged log).scheduleModel requestId m ∧
      t'.running = t.running ∧ t'.sched.reported = t.sched.reported ∧
      t'.nextId = requestId + 1 := by
  refine ⟨{ t with sched := t.sched.scheduleModel requestId m, nextId := requestId + 1 }, ?_,
    (HalfSplit.scheduleModel_relogged _ _ _).symm, rfl, HalfSplit.scheduleModel_reported _ _ _, rfl⟩
  simp only [step, hid, if_true]

theorem issued_eq_update (running : Nat → List Tile) (core : Nat) (tile : Option Tile) :
    issued running core tile = Function.update running core
      (running core ++ tile.toList.filter fun x => x.status = .INITIALIZED) := by
  cases tile with
  | none => simp [issued]
  | some x =>
    by_cases hx : x.status = .INITIALIZED <;> simp [issued, hx]

theorem step_getTile {core : Nat} {tile : Option Tile} {u : HalfSplit}
    (hcore : core < config.numCores)
    (hu : (t.sched.relogged log).getTile core = some (tile, u)) :
    ∃ t', step config t (.getTile core) = some t' ∧ t'.sched.relogged log = u ∧
      t'.sched.reported = t.sched.reported ∧ t'.nextId = t.nextId ∧
      t'.running = Function.update t.running core
        (t.running core ++ tile.toList.filter fun x => x.status = .INITIALIZED) := by
  obtain ⟨v, hv, hlog, hreported⟩ := HalfSplit.getTile_of_relogged hu
  refine ⟨{ t with sched := v, running := issued t.running core tile }, ?_, hlog, hreported, rfl,
    issued_eq_update _ _ _⟩
  simp only [step, hcore, if_true, hv, Option.bind_eq_bind, Option.bind_some]

theorem step_finishTile {core i : Nat} {tile : Tile} {u : HalfSplit}
    (hcore : core < config.numCores) (htile : (t.running core)[i]? = some tile)
    (hu : (t.sched.relogged log).finishTile tile.layerId = some u) :
    ∃ t', step config t (.finishTile core i) = some t' ∧ t'.sched.relogged log = u ∧
      t'.nextId = t.nextId ∧
      t'.running = Function.update t.running core ((t.running core).eraseIdx i) ∧
      t'.sched.reported = Function.update t.sched.reported tile.layerId
        (t.sched.reported tile.layerId ++ [tile]) := by
  have hu' : ((t.sched.report tile).relogged log).finishTile tile.layerId = some u := hu
  obtain ⟨v, hv, hlog, hreported⟩ := HalfSplit.finishTile_of_relogged hu'
  refine ⟨{ t with
      sched := v
      running := Function.update t.running core ((t.running core).eraseIdx i) }, ?_, hlog, rfl, rfl,
    hreported⟩
  simp only [step, hcore, if_true, htile, hv, Option.bind_eq_bind, Option.bind_some]

end HalfSystem

/-! ## The four schedulers -/

namespace Dispatcher

/-- The log of a scheduler that a simulator drives. -/
def noLog : Nat → List Tile := fun _ => []

/-- The three schedulers with queues of tiles. -/
def queues (config : SimulationConfig) (type : SchedulerType) :
    Dispatcher config.numCores (SchedulerInterface.create config (.queues type)) where
  State := System
  init := System.init config
  step := System.step config type
  scheduler := fun t => t.sched.relogged noLog
  running := fun t => t.running
  reported := fun t => t.sched.reported
  nextId := fun _ => 0
  init_eq := ⟨rfl, fun _ => rfl, fun _ => rfl, rfl⟩
  scheduleModel := fun hm _ hu => by
    obtain ⟨t', hs, hlog, hrunning, hreported⟩ := System.step_scheduleModel hm hu
    exact ⟨hm, t', hs, hlog, hrunning, hreported, Nat.zero_le _⟩
  getTile := fun {t core tile u} hcore hu => by
    obtain ⟨t', hs, hlog, hreported, hrunning⟩ := System.step_getTile hcore hu
    exact ⟨t', hs, hlog, hreported, rfl, tile.toList, fun x hx _ => by rw [hx]; rfl,
      fun hx => by rw [hx]; rfl, hrunning⟩
  finishTile := fun hcore htile hu => by
    obtain ⟨t', hs, hlog, hrunning, hreported⟩ := System.step_finishTile hcore htile hu
    exact ⟨t', hs, hlog, rfl, hrunning, hreported⟩
  dispatchBooks := fun run hmodels hids => System.dispatchBooks run hmodels hids

/-- The spatial split. -/
def spatialSplit (config : SimulationConfig) :
    Dispatcher config.numCores (SchedulerInterface.create config .spatialSplit) where
  State := HalfSystem
  init := {}
  step := HalfSystem.step config
  scheduler := fun t => t.sched.relogged noLog
  running := fun t => t.running
  reported := fun t => t.sched.reported
  nextId := fun t => t.nextId
  init_eq := ⟨rfl, fun _ => rfl, fun _ => rfl, rfl⟩
  scheduleModel := fun hm hid hu => by
    obtain ⟨t', hs, hlog, hrunning, hreported, hnext⟩ := HalfSystem.step_scheduleModel hm hid
    exact ⟨hm, t', hs, hlog.trans (Option.some.inj hu), hrunning, hreported, hnext.le⟩
  getTile := fun {t core tile u} hcore hu => by
    obtain ⟨t', hs, hlog, hreported, hnext, hrunning⟩ := HalfSystem.step_getTile hcore hu
    exact ⟨t', hs, hlog, hreported, hnext, _, fun x hx hstatus => by rw [hx]; simp [hstatus],
      fun hx => by rw [hx]; rfl, hrunning⟩
  finishTile := fun hcore htile hu => by
    obtain ⟨t', hs, hlog, hnext, hrunning, hreported⟩ := HalfSystem.step_finishTile hcore htile hu
    exact ⟨t', hs, hlog, hnext, hrunning, hreported⟩
  dispatchBooks := fun run hmodels hids => HalfSystem.dispatchBooks run hmodels hids

def create (config : SimulationConfig) : (type : HardwareType) →
    Dispatcher config.numCores (SchedulerInterface.create config type)
  | .queues type => queues config type
  | .spatialSplit => spatialSplit config

end Dispatcher

end OnnxSim
