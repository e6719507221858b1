import OnnxSim.Scheduler.Dependencies

/-!
# Partitions

`DedicatedCPUScheduler` with any load of the cores: `core_pq` and the counters of tiles and
instructions, which say to which core of a partition a tile goes, are arbitrary
(`PartitionCpu.Issues`). The scheduler that keeps them is one of these (`PartitionCpu.step_of`). The
tiles of a model stay in the queues of its partition, whatever order its layers start in and
whichever core they start for (`PartitionCpu.Isolated`).
-/

namespace OnnxSim

namespace PartitionCpu

/-! ## The scheduler without its loads -/

/-- `issue_tile_per_core(allowed_cpu, offset, partition_id)`: up to a barrier, the tiles go to cores of
`allowed_cpu`. -/
inductive Issues (allowedCpu : List Nat) (p : Nat) : Scheduler → Scheduler → Prop
  | stop {s : Scheduler}
      (hstop : ∀ tile rest, s.executableTileQueue p = tile :: rest → tile.status = .BAR) :
      Issues allowedCpu p s s
  | place {s s' : Scheduler} {tile : Tile} {rest : List Tile} (core : Nat) (pq : List CoreLoad)
      (tileNum insNum : Nat → Nat) (hqueue : s.executableTileQueue p = tile :: rest)
      (hbar : tile.status ≠ .BAR) (hcore : core ∈ allowedCpu)
      (hrest : Issues allowedCpu p
        { s.place p tile core with corePq := pq, tileNum := tileNum, insNum := insNum } s') :
      Issues allowedCpu p s s'

variable (config : SimulationConfig)

/-- The core has nothing to do, nor has its partition. -/
def Idle (s : Scheduler) (core : Nat) : Prop :=
  s.coreExecutableTileQueue core = [] ∧ s.executableTileQueue (config.partitionOf core) = []

/-- What `refresh_status` does for core `core`. -/
inductive RefreshCore (core : Nat) : Scheduler → Scheduler → Prop
  | busy {s : Scheduler} (hbusy : ¬ Idle config s core) : RefreshCore core s s
  | noModel {s : Scheduler} (hidle : Idle config s core)
      (hnone : s.requestQueue.findIdx?
        (fun r => r.model.partitionId == config.partitionOf core) = none) : RefreshCore core s s
  | noLayer {s : Scheduler} {i : Nat} (hidle : Idle config s core)
      (hmodel : s.requestQueue.findIdx?
        (fun r => r.model.partitionId == config.partitionOf core) = some i)
      (hnone : s.takeLayer i = none) : RefreshCore core s s
  | active {s s' : Scheduler} {i requestId : Nat} {op : Operation} (hidle : Idle config s core)
      (hmodel : s.requestQueue.findIdx?
        (fun r => r.model.partitionId == config.partitionOf core) = some i)
      (htake : s.takeLayer i = some (op, requestId, s')) (hactive : s'.isActive op.id) :
      RefreshCore core s s'
  | start {s t s' : Scheduler} {i requestId : Nat} {op : Operation} (hidle : Idle config s core)
      (hmodel : s.requestQueue.findIdx?
        (fun r => r.model.partitionId == config.partitionOf core) = some i)
      (htake : s.takeLayer i = some (op, requestId, t)) (hnew : ¬ t.isActive op.id)
      (hmoved : op.moved = 0)
      (hissue : Issues (config.partitionMap (config.partitionOf core)) (config.partitionOf core)
        ((t.moveLayer i op.id).enqueueLayer op requestId (config.partitionOf core)) s') :
      RefreshCore core s s'

/-- The loop of `refresh_status` over the cores. -/
inductive RefreshCores : List Nat → Scheduler → Scheduler → Prop
  | nil {s : Scheduler} : RefreshCores [] s s
  | cons {s t s' : Scheduler} {core : Nat} {cores : List Nat}
      (hcore : RefreshCore config core s t) (hrest : RefreshCores cores t s') :
      RefreshCores (core :: cores) s s'

/-- `DedicatedCPUScheduler::refresh_status`. -/
inductive Refresh (s : Scheduler) : Scheduler → Prop
  | empty (hempty : s.dropFinished.requestQueue = []) : Refresh s s.dropFinished
  | cores {s' : Scheduler} (hnonempty : s.dropFinished.requestQueue ≠ [])
      (hcores : RefreshCores config (List.range config.numCores) s.dropFinished s') : Refresh s s'

/-- `finish_tile`. -/
inductive FinishTile (s : Scheduler) (layerId : Nat) : Scheduler → Prop
  | more {stat : LayerStat} {s' : Scheduler} (hstat : s.activeLayersMap.lookup layerId = some stat)
      (hmore : 1 < stat.remainTiles)
      (hrefresh : Refresh config (s.setLayerStat layerId { stat with
        remainTiles := stat.remainTiles - 1, finishedTiles := stat.finishedTiles + 1 }) s') :
      FinishTile s layerId s'
  | last {stat : LayerStat} {t s' : Scheduler}
      (hstat : s.activeLayersMap.lookup layerId = some stat) (hlast : stat.remainTiles = 1)
      (hfinish : Scheduler.setLayerFinish .partitionCpu (s.setLayerStat layerId { stat with
          remainTiles := stat.remainTiles - 1, finishedTiles := stat.finishedTiles + 1 }) layerId
        { stat with
          remainTiles := stat.remainTiles - 1, finishedTiles := stat.finishedTiles + 1 } = some t)
      (hrefresh : Refresh config { t with activeLayersMap := t.activeLayersMap.erase layerId } s') :
      FinishTile s layerId s'

/-- What follows a popped barrier of layer `layerId`. -/
inductive AfterBar (s : Scheduler) (p layerId : Nat) : Scheduler → Prop
  | finish {s' : Scheduler} (hlast : (s.layerStat layerId).remainTiles = 0)
      (hfinish : FinishTile config
        (s.setLayerStat layerId { s.layerStat layerId with remainTiles := 1 }) layerId s') :
      AfterBar s p layerId s'
  | issue {s' : Scheduler} (hmore : (s.layerStat layerId).remainTiles ≠ 0)
      (hissue : Issues (config.partitionMap p) p s s') : AfterBar s p layerId s'

/-- `get_tile`. -/
inductive GetTile (s : Scheduler) (core : Nat) : Option Tile → Scheduler → Prop
  | refresh {s' : Scheduler} (hidle : Idle config s core) (hrefresh : Refresh config s s') :
      GetTile s core none s'
  | tile {t : Tile} {rest : List Tile} (hqueue : s.coreExecutableTileQueue core = t :: rest) :
      GetTile s core (some t) { s.setLayerStat t.layerId { s.layerStat t.layerId with
          launchedTiles := (s.layerStat t.layerId).launchedTiles + 1 } with
        coreExecutableTileQueue := Function.update s.coreExecutableTileQueue core rest }
  | popBar {t : Tile} {rest : List Tile} {s' : Scheduler}
      (hcore : s.coreExecutableTileQueue core = [])
      (hqueue : s.executableTileQueue (config.partitionOf core) = t :: rest)
      (hbar : t.status = .BAR)
      (hfinished : (s.layerStat t.layerId).launchedTiles = (s.layerStat t.layerId).finishedTiles)
      (hafter : AfterBar config (s.popBar (config.partitionOf core) t) (config.partitionOf core)
        t.layerId s') : GetTile s core none s'
  | waitBar {t : Tile} {rest : List Tile} (hcore : s.coreExecutableTileQueue core = [])
      (hqueue : s.executableTileQueue (config.partitionOf core) = t :: rest)
      (hbar : t.status = .BAR)
      (hwait : (s.layerStat t.layerId).launchedTiles ≠ (s.layerStat t.layerId).finishedTiles) :
      GetTile s core none (s.setLayerStat t.layerId (s.layerStat t.layerId))
  | wrong {t : Tile} {rest : List Tile} (hcore : s.coreExecutableTileQueue core = [])
      (hqueue : s.executableTileQueue (config.partitionOf core) = t :: rest)
      (hbar : t.status ≠ .BAR) : GetTile s core none s

/-- The calls of `schedule_model`, `get_tile` and `finish_tile`. -/
inductive Step : System → System.Act → System → Prop
  | scheduleModel {s : System} {sched : Scheduler} (requestId : Nat) (m : Model) (tagged : m.Tagged)
      (hrefresh : Refresh config { s.sched with
        requestQueue := s.sched.requestQueue ++ [{ requestId := requestId, model := m }] } sched) :
      Step s (.scheduleModel requestId m tagged) { s with sched := sched }
  | getTile {s : System} {tile : Option Tile} {sched : Scheduler} (core : Nat)
      (hcore : core < config.numCores) (hget : GetTile config s.sched core tile sched) :
      Step s (.getTile core) { sched := sched, running := System.give s.running core tile }
  | finishTile {s : System} {t : Tile} {sched : Scheduler} (core i : Nat)
      (hcore : core < config.numCores) (htile : (s.running core)[i]? = some t)
      (hfinish : FinishTile config (s.sched.report t) t.layerId sched) :
      Step s (.finishTile core i) { sched := sched
                                    running := Function.update s.running core
                                      ((s.running core).eraseIdx i) }

def Run (h : List (System × System.Act)) (s : System) : Prop :=
  Machine.Run (Step config) (System.init config) h s

variable {config}

/-! ## The scheduler with its loads -/

open Scheduler (issueTile issueLoop issueTilePerCoreIn refreshCore refreshPartitionCpu afterBar)

theorem issueTile_eq {remap : Nat → Nat} {offset p : Nat} {s s' : Scheduler} {tile : Tile}
    (h : issueTile config remap offset p s tile = some s') :
    ∃ k pq tileNum insNum, s' = { s.place p tile (remap k) with
      corePq := pq, tileNum := tileNum, insNum := insNum } := by
  obtain ⟨top, -, h⟩ := Option.bind_eq_some_iff.mp h
  obtain ⟨⟨load, u⟩, hcount, h⟩ := Option.bind_eq_some_iff.mp h
  obtain rfl := Option.some.inj h
  obtain ⟨-, tileNum, insNum, rfl⟩ := Scheduler.countTile_eq_some hcount
  exact ⟨_, _, tileNum, insNum, rfl⟩

theorem issues_of_issueLoop {cpus : List Nat} {remap : Nat → Nat} (hremap : ∀ k, remap k ∈ cpus)
    {offset p n : Nat} {s s' : Scheduler} (hn : (s.executableTileQueue p).length ≤ n)
    (h : issueLoop config remap offset p n s = some s') : Issues cpus p s s' := by
  induction n generalizing s with
  | zero =>
    obtain rfl := Option.some.inj h
    have hnil := List.length_eq_zero_iff.mp (Nat.le_zero.mp hn)
    exact .stop fun tile rest hqueue => absurd (hnil.symm.trans hqueue) (by simp)
  | succ n ih =>
    unfold issueLoop at h
    split at h
    · rename_i hnil
      obtain rfl := Option.some.inj h
      exact .stop fun tile rest hqueue => absurd (hnil.symm.trans hqueue) (by simp)
    · rename_i tile rest hqueue
      split at h
      · rename_i hbar
        obtain rfl := Option.some.inj h
        refine .stop fun tile' rest' hqueue' => ?_
        obtain ⟨rfl, -⟩ := List.cons.inj (hqueue.symm.trans hqueue')
        exact hbar
      · rename_i hbar
        obtain ⟨u, hu, h⟩ := Option.bind_eq_some_iff.mp h
        obtain ⟨k, pq, tileNum, insNum, rfl⟩ := issueTile_eq hu
        refine .place _ pq tileNum insNum hqueue hbar (hremap k) (ih ?_ h)
        simp only [Scheduler.place, Function.update_self, hqueue, List.tail_cons]
        rw [hqueue, List.length_cons] at hn
        omega

theorem issues_of {cpus : List Nat} {offset p : Nat} {s s' : Scheduler}
    (h : issueTilePerCoreIn config cpus offset p s = some s') : Issues cpus p s s' := by
  unfold issueTilePerCoreIn at h
  split at h
  · cases h
  · rename_i hne
    refine issues_of_issueLoop (fun k => ?_) (Nat.le_refl _) h
    have hlt : k % cpus.length < cpus.length := Nat.mod_lt _ (List.length_pos_iff.mpr hne)
    simp [hlt]

theorem refreshCore_of {core : Nat} {s s' : Scheduler}
    (h : refreshCore config s core = some s') : RefreshCore config core s s' := by
  unfold refreshCore at h
  simp only at h
  split at h
  · rename_i hidle
    obtain ⟨hcore, hqueue⟩ := Bool.and_eq_true_iff.mp hidle
    have hidle : Idle config s core := ⟨List.isEmpty_iff.mp hcore, List.isEmpty_iff.mp hqueue⟩
    split at h
    · rename_i hnone
      obtain rfl := Option.some.inj h
      exact .noModel hidle hnone
    · rename_i i hmodel
      split at h
      · rename_i hnone
        obtain rfl := Option.some.inj h
        exact .noLayer hidle hmodel hnone
      · rename_i op requestId t htake
        split at h
        · rename_i hactive
          obtain rfl := Option.some.inj h
          exact .active hidle hmodel htake hactive
        · rename_i hnew
          split at h
          · cases h
          · rename_i hmoved
            exact .start hidle hmodel htake hnew (not_not.mp hmoved) (issues_of h)
  · rename_i hbusy
    obtain rfl := Option.some.inj h
    refine .busy fun ⟨hcore, hqueue⟩ => hbusy ?_
    rw [hcore, hqueue]
    rfl

theorem refreshCores_of {cores : List Nat} {s s' : Scheduler}
    (h : cores.foldlM (refreshCore config) s = some s') : RefreshCores config cores s s' := by
  induction cores generalizing s with
  | nil =>
    obtain rfl := Option.some.inj h
    exact .nil
  | cons core cores ih =>
    rw [List.foldlM_cons] at h
    obtain ⟨t, ht, h⟩ := Option.bind_eq_some_iff.mp h
    exact .cons (refreshCore_of ht) (ih h)

theorem refresh_of {s s' : Scheduler} (h : refreshPartitionCpu config s = some s') :
    Refresh config s s' := by
  unfold refreshPartitionCpu at h
  split at h
  · rename_i hempty
    obtain rfl := Option.some.inj h
    exact .empty (List.isEmpty_iff.mp hempty)
  · rename_i hnonempty
    exact .cores (fun hempty => hnonempty (List.isEmpty_iff.mpr hempty)) (refreshCores_of h)

theorem finishTile_of {s s' : Scheduler} {layerId : Nat}
    (h : s.finishTile config .partitionCpu layerId = some s') :
    FinishTile config s layerId s' := by
  obtain ⟨stat, hstat, hremain, hcases⟩ := Scheduler.finishTile_eq_some h
  rcases hcases with ⟨hne, hs⟩ | ⟨hone, u, hu, hs⟩
  · exact .more hstat (by omega) (refresh_of hs)
  · exact .last hstat hone hu (refresh_of hs)

theorem afterBar_of {s s' : Scheduler} {core p layerId : Nat}
    (h : afterBar config .partitionCpu s core p layerId = some s') :
    AfterBar config s p layerId s' := by
  unfold afterBar at h
  simp only at h
  split at h
  · rename_i hlast
    exact .finish hlast (finishTile_of h)
  · rename_i hmore
    exact .issue hmore (issues_of h)

theorem getTile_of {s s' : Scheduler} {core : Nat} {tile : Option Tile}
    (h : s.getTile config .partitionCpu core = some (tile, s')) :
    GetTile config s core tile s' := by
  unfold Scheduler.getTile at h
  simp only at h
  split at h
  · rename_i hcore hqueue
    obtain ⟨u, hu, h⟩ := Option.bind_eq_some_iff.mp h
    obtain ⟨rfl, rfl⟩ := Prod.mk.inj (Option.some.inj h)
    exact .refresh ⟨hcore, hqueue⟩ (refresh_of hu)
  · rename_i hqueue
    obtain ⟨rfl, rfl⟩ := Prod.mk.inj (Option.some.inj h)
    exact .tile hqueue
  · rename_i hcore hqueue
    split at h
    · rename_i hbar
      split at h
      · rename_i hfinished
        obtain ⟨u, hu, h⟩ := Option.bind_eq_some_iff.mp h
        obtain ⟨rfl, rfl⟩ := Prod.mk.inj (Option.some.inj h)
        exact .popBar hcore hqueue hbar hfinished (afterBar_of hu)
      · rename_i hwait
        obtain ⟨rfl, rfl⟩ := Prod.mk.inj (Option.some.inj h)
        exact .waitBar hcore hqueue hbar hwait
    · rename_i hbar
      obtain ⟨rfl, rfl⟩ := Prod.mk.inj (Option.some.inj h)
      exact .wrong hcore hqueue hbar

/-- A step of the scheduler that keeps its loads is a step whatever they are. -/
theorem step_of {s s' : System} {a : System.Act}
    (h : System.step config .partitionCpu s a = some s') : Step config s a s' := by
  cases a with
  | scheduleModel requestId m tagged =>
    obtain ⟨sched, hsched, h⟩ := Option.bind_eq_some_iff.mp h
    obtain rfl := Option.some.inj h
    exact .scheduleModel requestId m tagged (refresh_of hsched)
  | getTile core =>
    simp only [System.step] at h
    split at h
    · rename_i hcore
      obtain ⟨⟨tile, sched⟩, hget, h⟩ := Option.bind_eq_some_iff.mp h
      obtain rfl := Option.some.inj h
      exact .getTile core hcore (getTile_of hget)
    · cases h
  | finishTile core i =>
    simp only [System.step] at h
    split at h
    · rename_i hcore
      obtain ⟨t, ht, h⟩ := Option.bind_eq_some_iff.mp h
      obtain ⟨sched, hsched, h⟩ := Option.bind_eq_some_iff.mp h
      obtain rfl := Option.some.inj h
      exact .finishTile core i hcore ht (finishTile_of hsched)
    · cases h

theorem run_of {h : List (System × System.Act)} {s : System}
    (run : System.Run config .partitionCpu h s) : Run config h s :=
  Machine.Run.mono run fun _ _ _ hstep => step_of hstep

/-! ## Isolation -/

/-- The layers of a model are at home in its partition. -/
structure Homed (home : Nat → Nat) (m : Model) : Prop where
  tagged : m.Tagged
  home : ∀ op ∈ m.operationMap, home op.id = m.partitionId

/-- The tiles of a layer are in the queue of its partition or at a core of it. -/
structure Isolated (config : SimulationConfig) (home : Nat → Nat) (s : Scheduler) : Prop where
  requests : ∀ r ∈ s.requestQueue, Homed home r.model
  waiting : ∀ p, ∀ t ∈ s.executableTileQueue p, home t.layerId = p
  queued : ∀ core, ∀ t ∈ s.coreExecutableTileQueue core,
    core ∈ config.partitionMap (home t.layerId)

variable {home : Nat → Nat} {m m' : Model} {s s' : Scheduler}

theorem Homed.mapOps (h : Homed home m) {f : Operation → Operation} (hf : ∀ o, (f o).id = o.id)
    (hops : m'.operationMap = m.operationMap.map f) (hpartition : m'.partitionId = m.partitionId)
    (htagged : m'.Tagged) : Homed home m' := by
  refine ⟨htagged, fun op hop => ?_⟩
  rw [hops] at hop
  obtain ⟨o, ho, rfl⟩ := List.mem_map.mp hop
  rw [hf, hpartition]
  exact h.home o ho

theorem Homed.moveTiles (h : Homed home m) (id : Nat) : Homed home (m.moveTiles id) := by
  refine h.mapOps (fun o => ?_) rfl rfl (h.tagged.moveTiles id)
  split <;> rfl

theorem Homed.setFinish (h : Homed home m) (op : Operation) : Homed home (m.setFinish op) := by
  refine h.mapOps (fun o => ?_) rfl rfl (h.tagged.setFinish op)
  split <;> rfl

theorem Homed.pushExecutable {ids : List Nat} (h : Homed home m)
    (hm : m.pushExecutable ids = some m') : Homed home m' := by
  induction ids generalizing m with
  | nil =>
    obtain rfl := Option.some.inj hm
    exact h
  | cons id ids ih =>
    obtain ⟨op, -, hm⟩ := Option.bind_eq_some_iff.mp hm
    refine ih ?_ hm
    split <;> exact ⟨h.tagged, h.home⟩

theorem Homed.setLayerFinish {id : Nat} (h : Homed home m) (hm : m.setLayerFinish id = some m') :
    Homed home m' := by
  obtain ⟨op, -, hm⟩ := Option.bind_eq_some_iff.mp hm
  exact (h.setFinish op).pushExecutable hm

theorem Homed.getExecutableTile {op : Operation} (h : Homed home m)
    (hm : m.getExecutableTile = some (op, m')) : Homed home m' ∧
      ∀ t ∈ op.tiles, home t.layerId = m.partitionId := by
  unfold Model.getExecutableTile at hm
  split at hm
  · cases hm
  · obtain ⟨o, ho, hm⟩ := Option.bind_eq_some_iff.mp hm
    obtain ⟨rfl, rfl⟩ := Prod.mk.inj (Option.some.inj hm)
    have hmem : o ∈ m.operationMap := List.mem_of_find?_eq_some ho
    refine ⟨⟨h.tagged, h.home⟩, fun t ht => ?_⟩
    rw [h.tagged o hmem t ht]
    exact h.home o hmem

/-- Issuing moves tiles from the queue of a partition to its cores. -/
theorem Isolated.issues {p : Nat} (h : Isolated config home s)
    (hs : Issues (config.partitionMap p) p s s') : Isolated config home s' := by
  induction hs with
  | stop => exact h
  | @place s s' tile rest core pq tileNum insNum hqueue hbar hcore hrest ih =>
    have hhome : home tile.layerId = p := h.waiting p tile (hqueue ▸ List.mem_cons_self)
    refine ih ⟨h.requests, fun q t ht => ?_, fun c t ht => ?_⟩
    all_goals simp only [Scheduler.place, Function.update_apply] at ht
    · split at ht
      · rename_i heq
        subst heq
        exact h.waiting q t (List.mem_of_mem_tail ht)
      · exact h.waiting q t ht
    · split at ht
      · rename_i heq
        subst heq
        rcases List.mem_append.mp ht with ht | ht
        · exact h.queued c t ht
        · obtain rfl := List.mem_singleton.mp ht
          rw [Tile.onCore_layerId, hhome]
          exact hcore
      · exact h.queued c t ht

theorem Isolated.putModel {i : Nat} {r : Request} (h : Isolated config home s)
    (hm : Homed home m) : Isolated config home (s.putModel i r m) := by
  refine ⟨fun r' hr' => ?_, h.waiting, h.queued⟩
  rcases List.mem_or_eq_of_mem_set hr' with hr' | rfl
  · exact h.requests r' hr'
  · exact hm

/-- A layer of a model of the partition enters its queue. -/
theorem Isolated.enqueueLayer {op : Operation} {requestId p : Nat} (h : Isolated config home s)
    (hop : ∀ t ∈ op.tiles, home t.layerId = p) :
    Isolated config home (s.enqueueLayer op requestId p) := by
  refine ⟨h.requests, fun q t ht => ?_, h.queued⟩
  simp only [Scheduler.enqueueLayer, Function.update_apply] at ht
  split at ht
  · rename_i heq
    subst heq
    rcases List.mem_append.mp ht with ht | ht
    · exact h.waiting q t ht
    · exact hop t ht
  · exact h.waiting q t ht

theorem Isolated.refreshCore {core : Nat} (h : Isolated config home s)
    (hs : RefreshCore config core s s') : Isolated config home s' := by
  cases hs with
  | busy => exact h
  | noModel => exact h
  | noLayer => exact h
  | active _ _ htake _ =>
    obtain ⟨r, m, hr, hm, -, rfl, -, -⟩ := Scheduler.takeLayer_eq_some htake
    exact h.putModel ((h.requests r (List.mem_of_getElem? hr)).getExecutableTile hm).1
  | start _ hmodel htake _ _ hissue =>
    obtain ⟨r, m, hr, hm, -, -, hmove, -⟩ := Scheduler.takeLayer_eq_some htake
    obtain ⟨hhomed, htiles⟩ := (h.requests r (List.mem_of_getElem? hr)).getExecutableTile hm
    -- the layer was taken from a model of the partition of `core`
    have hpartition : r.model.partitionId = config.partitionOf core := by
      obtain ⟨hlt, hget, -⟩ := List.findIdx?_eq_some_iff_getElem.mp hmodel
      obtain rfl := Option.some.inj ((List.getElem?_eq_getElem hlt).symm.trans hr)
      simpa using hget
    rw [hmove] at hissue
    refine Isolated.issues ((h.putModel (hhomed.moveTiles _)).enqueueLayer fun t ht => ?_)
      hissue
    exact (htiles t ht).trans hpartition

theorem Isolated.refreshCores {cores : List Nat} (h : Isolated config home s)
    (hs : RefreshCores config cores s s') : Isolated config home s' := by
  induction hs with
  | nil => exact h
  | cons hcore _ ih => exact ih (h.refreshCore hcore)

theorem Isolated.refresh (h : Isolated config home s) (hs : Refresh config s s') :
    Isolated config home s' := by
  have hdrop : Isolated config home s.dropFinished :=
    ⟨fun r hr => h.requests r (List.mem_of_mem_filter hr), h.waiting, h.queued⟩
  cases hs with
  | empty => exact hdrop
  | cores _ hcores => exact hdrop.refreshCores hcores

/-- The layers' counters are not part of it. -/
theorem Isolated.activeLayers {map : AList fun _ : Nat => LayerStat}
    (h : Isolated config home s) : Isolated config home { s with activeLayersMap := map } :=
  ⟨h.requests, h.waiting, h.queued⟩

theorem Isolated.setLayerFinish {layerId : Nat} {stat : LayerStat} (h : Isolated config home s)
    (hs : Scheduler.setLayerFinish .partitionCpu s layerId stat = some s') :
    Isolated config home s' := by
  obtain ⟨requests, hrequests, hs⟩ := Option.bind_eq_some_iff.mp hs
  split at hs
  · obtain rfl := Option.some.inj hs
    refine ⟨?_, h.waiting, h.queued⟩
    exact Scheduler.forall_of_told (Scheduler.forall₂_told hrequests) h.requests
      fun _ _ hr hm => hr.setLayerFinish hm
  · cases hs

theorem Isolated.finishTile {layerId : Nat} (h : Isolated config home s)
    (hs : FinishTile config s layerId s') : Isolated config home s' := by
  cases hs with
  | more _ _ hrefresh => exact h.activeLayers.refresh hrefresh
  | last _ _ hfinish hrefresh =>
    exact (h.activeLayers.setLayerFinish hfinish).activeLayers.refresh hrefresh

theorem Isolated.afterBar {p layerId : Nat} (h : Isolated config home s)
    (hs : AfterBar config s p layerId s') : Isolated config home s' := by
  cases hs with
  | finish _ hfinish => exact h.activeLayers.finishTile hfinish
  | issue _ hissue => exact h.issues hissue

theorem Isolated.popBar {p : Nat} {tile : Tile} (h : Isolated config home s) :
    Isolated config home (s.popBar p tile) := by
  refine ⟨h.requests, fun q t ht => ?_, h.queued⟩
  simp only [Scheduler.popBar, Function.update_apply] at ht
  split at ht
  · rename_i heq
    subst heq
    exact h.waiting q t (List.mem_of_mem_tail ht)
  · exact h.waiting q t ht

/-- A tile that is handed out was at a core of its partition. -/
theorem Isolated.getTile {core : Nat} {tile : Option Tile} (h : Isolated config home s)
    (hs : GetTile config s core tile s') :
    Isolated config home s' ∧ ∀ t, tile = some t → config.partitionOf core = home t.layerId := by
  cases hs with
  | refresh _ hrefresh => exact ⟨h.refresh hrefresh, fun t ht => (nomatch ht)⟩
  | @tile t rest hqueue =>
    refine ⟨⟨h.requests, h.waiting, fun c t' ht' => ?_⟩, fun t' ht' => ?_⟩
    · simp only [Function.update_apply] at ht'
      split at ht'
      · rename_i heq
        subst heq
        exact h.queued c t' (hqueue ▸ List.mem_cons_of_mem _ ht')
      · exact h.queued c t' ht'
    · obtain rfl := Option.some.inj ht'
      have hmem := h.queued core t (hqueue ▸ List.mem_cons_self)
      simpa using (List.mem_filter.mp hmem).2
  | popBar _ _ _ _ hafter => exact ⟨h.popBar.afterBar hafter, fun t ht => (nomatch ht)⟩
  | waitBar => exact ⟨h.activeLayers, fun t ht => (nomatch ht)⟩
  | wrong => exact ⟨h, fun t ht => (nomatch ht)⟩

theorem Isolated.step {t u : System} {a : System.Act} (h : Isolated config home t.sched)
    (ha : ∀ m ∈ a.scheduled, Homed home m) (hs : Step config t a u) :
    Isolated config home u.sched := by
  cases hs with
  | scheduleModel requestId m tagged hrefresh =>
    have hqueued : Isolated config home { t.sched with
        requestQueue := t.sched.requestQueue ++ [{ requestId := requestId, model := m }] } := by
      refine ⟨fun r hr => ?_, h.waiting, h.queued⟩
      rcases List.mem_append.mp hr with hr | hr
      · exact h.requests r hr
      · obtain rfl := List.mem_singleton.mp hr
        exact ha m (List.mem_singleton.mpr rfl)
    exact hqueued.refresh hrefresh
  | getTile core _ hget => exact (h.getTile hget).1
  | finishTile core i _ _ hfinish =>
    have hreport : ∀ tile, Isolated config home (t.sched.report tile) :=
      fun _ => ⟨h.requests, h.waiting, h.queued⟩
    exact (hreport _).finishTile hfinish

theorem tagged_of_scheduled {a : System.Act} (hm : m ∈ a.scheduled) : m.Tagged := by
  cases a with
  | scheduleModel _ _ tagged => exact List.mem_singleton.mp hm ▸ tagged
  | getTile => cases hm
  | finishTile => cases hm

theorem Run.isolated_sched {h : List (System × System.Act)} {u : System} (run : Run config h u)
    (hhome : ∀ m ∈ scheduledIn h, ∀ l ∈ m.ids, home l = m.partitionId) :
    Isolated config home u.sched := by
  refine Machine.Run.invariant_of (P := fun u : System => Isolated config home u.sched)
    (C := fun _ a => ∀ m ∈ System.Act.scheduled a, Homed home m) run ?_
    (fun t a v ht ha hstep => ht.step ha hstep) fun x hx m hm => ?_
  · exact ⟨fun r hr => (nomatch hr), fun p t ht => (nomatch ht), fun c t ht => (nomatch ht)⟩
  · refine ⟨tagged_of_scheduled hm, fun op hop => ?_⟩
    exact hhome m (List.mem_flatMap.mpr ⟨x, hx, hm⟩) _ (List.mem_map_of_mem hop)

open Classical in
/-- The partition of the models that have layer `l`. -/
noncomputable def homeOf (models : List Model) (l : Nat) : Nat :=
  if h : ∃ m ∈ models, l ∈ m.ids then h.choose.partitionId else 0

theorem homeOf_eq {models : List Model}
    (hids : ∀ m ∈ models, ∀ m' ∈ models, ∀ l ∈ m.ids, l ∈ m'.ids →
      m.partitionId = m'.partitionId) (hm : m ∈ models) {l : Nat} (hl : l ∈ m.ids) :
    homeOf models l = m.partitionId := by
  have hex : ∃ m ∈ models, l ∈ m.ids := ⟨m, hm, hl⟩
  unfold homeOf
  rw [dif_pos hex]
  exact hids _ hex.choose_spec.1 m hm l hex.choose_spec.2 hl

/-- The tiles of a model wait in the queue of its partition or at a core of it, and no other core
is given one, whatever the loads are: where models of different partitions have different layers. -/
theorem partition_isolation {h : List (System × System.Act)} {u : System} (run : Run config h u)
    (hids : ∀ m ∈ scheduledIn h, ∀ m' ∈ scheduledIn h, ∀ l ∈ m.ids, l ∈ m'.ids →
      m.partitionId = m'.partitionId) :
    ∀ m ∈ scheduledIn h, ∀ t : Tile, t.layerId ∈ m.ids →
      (∀ p, t ∈ u.sched.executableTileQueue p → p = m.partitionId) ∧
      (∀ core, t ∈ u.sched.coreExecutableTileQueue core →
        core ∈ config.partitionMap m.partitionId) ∧
      ∀ core sched, GetTile config u.sched core (some t) sched →
        config.partitionOf core = m.partitionId := by
  have hisolated := run.isolated_sched fun m hm l hl => homeOf_eq hids hm hl
  intro m hm t ht
  have hhome := homeOf_eq hids hm ht
  refine ⟨fun p hp => ?_, fun core hcore => ?_, fun core sched hget => ?_⟩
  · rw [← hhome, hisolated.waiting p t hp]
  · rw [← hhome]
    exact hisolated.queued core t hcore
  · rw [← hhome]
    exact (hisolated.getTile hget).2 t rfl

/-! ## Two partitions -/

/-- Core 0 is a partition of its own, cores 1 and 2 are another. -/
def unevenCores : SimulationConfig where
  numCores := 3
  dramChannels := 1
  dramReqSize := 32
  partitionOf := fun core => if core = 0 then 0 else 1

/-- A model of partition `p` with one layer of two tiles. -/
def modelOf (p : Nat) : Model where
  operationMap := [{ id := p, tiles := List.replicate 2 { status := .INITIALIZED, layerId := p } }]
  executableLayer := [p]
  partitionId := p

theorem modelOf_tagged (p : Nat) : (modelOf p).Tagged := by
  intro op hop t ht
  obtain rfl := List.mem_singleton.mp hop
  rw [List.eq_of_mem_replicate ht]

/-- A model of each partition. -/
def bothModels : List System.Act :=
  [.scheduleModel 0 (modelOf 0) (modelOf_tagged 0), .scheduleModel 1 (modelOf 1) (modelOf_tagged 1)]

/-- The second model's tiles wait at cores 1 and 2 only. -/
theorem partition_isolation_bothModels : ∃ h s, Run unevenCores h s ∧
    (s.sched.coreExecutableTileQueue 1).length = 2 ∧
    ∀ t : Tile, t.layerId = 1 → ∀ core, t ∈ s.sched.coreExecutableTileQueue core →
      core ∈ unevenCores.partitionMap 1 := by
  have hlength : (bothModels.foldlM (System.step unevenCores .partitionCpu)
      (System.init unevenCores)).map (fun s => (s.sched.coreExecutableTileQueue 1).length) =
        some 2 := by decide +kernel
  obtain ⟨s, hs, hlength⟩ := Option.map_eq_some_iff.mp hlength
  obtain ⟨h, hacts, run⟩ := Machine.Run.of_foldlM hs
  have hscheduled : scheduledIn h = [modelOf 0, modelOf 1] := by
    have hmap : scheduledIn h = (h.map Prod.snd).flatMap System.Act.scheduled := by
      unfold scheduledIn
      rw [List.flatMap_map]
    rw [hmap, hacts]
    rfl
  refine ⟨h, s, run_of run, hlength, fun t ht core hcore => ?_⟩
  refine (partition_isolation (run_of run) ?_ (modelOf 1) ?_ t ?_).2.1 core hcore
  · rw [hscheduled]
    decide
  · rw [hscheduled]
    simp
  · rw [ht]
    decide

end PartitionCpu

end OnnxSim
