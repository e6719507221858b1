import OnnxSim.Scheduler.HalfSplit

/-!
# The log of reported tiles

`Scheduler.reported` and `HalfSplit.reported` say which tiles the cores have reported, as they were when
they were handed out. No function of the schedulers reads the log or writes into it, so a scheduler with
another log does the same (`Scheduler.relogged`, `HalfSplit.relogged`).
-/

namespace OnnxSim

namespace Scheduler

variable {config : SimulationConfig} {type : SchedulerType} {log : Nat → List Tile}

/-- The scheduler with another log of the reported tiles. -/
def relogged (log : Nat → List Tile) (s : Scheduler) : Scheduler := { s with reported := log }

section fields

variable (s : Scheduler)

@[simp] theorem relogged_requestQueue : (s.relogged log).requestQueue = s.requestQueue := rfl

@[simp] theorem relogged_executableTileQueue :
    (s.relogged log).executableTileQueue = s.executableTileQueue := rfl

@[simp] theorem relogged_coreExecutableTileQueue :
    (s.relogged log).coreExecutableTileQueue = s.coreExecutableTileQueue := rfl

@[simp] theorem relogged_activeLayersMap : (s.relogged log).activeLayersMap = s.activeLayersMap := rfl

@[simp] theorem relogged_corePq : (s.relogged log).corePq = s.corePq := rfl

end fields

theorem issueTile_relogged (remap : Nat → Nat) (offset p : Nat) (s : Scheduler) (tile : Tile) :
    issueTile config remap offset p (s.relogged log) tile =
      (issueTile config remap offset p s tile).map (relogged log) := by
  unfold issueTile countTile
  rw [relogged_corePq]
  cases topLoad s.corePq with
  | none => rfl
  | some top =>
    simp only [Option.bind_eq_bind, Option.bind_some]
    split
    · rfl
    · split <;> rfl

theorem issueLoop_relogged (remap : Nat → Nat) (offset p n : Nat) (s : Scheduler) :
    issueLoop config remap offset p n (s.relogged log) =
      (issueLoop config remap offset p n s).map (relogged log) := by
  induction n generalizing s with
  | zero => rfl
  | succ n ih =>
    unfold issueLoop
    rw [relogged_executableTileQueue]
    cases s.executableTileQueue p with
    | nil => rfl
    | cons tile rest =>
      simp only
      split
      · rfl
      · rw [issueTile_relogged]
        cases issueTile config remap offset p s tile with
        | none => rfl
        | some s' => exact ih s'

theorem issueTilePerCore_relogged (s : Scheduler) :
    issueTilePerCore config (s.relogged log) = (issueTilePerCore config s).map (relogged log) :=
  issueLoop_relogged _ _ _ _ s

theorem issueTilePerCoreIn_relogged (allowedCpu : List Nat) (offset p : Nat) (s : Scheduler) :
    issueTilePerCoreIn config allowedCpu offset p (s.relogged log) =
      (issueTilePerCoreIn config allowedCpu offset p s).map (relogged log) := by
  unfold issueTilePerCoreIn
  split
  · rfl
  · exact issueLoop_relogged _ _ _ _ s

theorem takeLayer_relogged (s : Scheduler) (i : Nat) :
    (s.relogged log).takeLayer i = (s.takeLayer i).map fun r => (r.1, r.2.1, (r.2.2.relogged log)) := by
  unfold takeLayer
  rw [relogged_requestQueue]
  cases s.requestQueue[i]? with
  | none => rfl
  | some r =>
    simp only [Option.bind_eq_bind, Option.bind_some]
    cases r.model.getExecutableTile with
    | none => rfl
    | some r => rfl

theorem dropFront_relogged (s : Scheduler) : (s.relogged log).dropFront = (s.dropFront.relogged log) := by
  unfold dropFront
  rw [relogged_requestQueue]
  cases s.requestQueue with
  | nil => rfl
  | cons r rest =>
    simp only
    split <;> rfl

theorem startSimple_relogged (s : Scheduler) :
    startSimple config (s.relogged log) = (startSimple config s).map (relogged log) := by
  unfold startSimple
  change (if (!s.requestQueue.isEmpty && tileQueueEmpty config s && s.countActiveLayers == 0) = true
    then _ else _) = _
  split
  · rw [takeLayer_relogged]
    cases s.takeLayer 0 with
    | none => rfl
    | some r =>
      simp only [Option.map_some]
      split
      · rfl
      · exact issueTilePerCore_relogged ((r.2.2.clearLayer r.1.id).enqueueLayer r.1 0 0)
  · rfl

theorem startTimeMultiplex_relogged (s : Scheduler) :
    startTimeMultiplex config (s.relogged log) = (startTimeMultiplex config s).map (relogged log) := by
  unfold startTimeMultiplex
  change (if (!s.requestQueue.isEmpty && tileQueueEmpty config s) = true then _ else _) = _
  split
  · have hnext : (s.relogged log).nextRequest = (s.nextRequest.relogged log) := rfl
    have hrr : (s.nextRequest.relogged log).requestRr = s.nextRequest.requestRr := rfl
    rw [hnext, hrr, takeLayer_relogged]
    cases s.nextRequest.takeLayer s.nextRequest.requestRr with
    | none => rfl
    | some r =>
      obtain ⟨op, requestId, s'⟩ := r
      simp only [Option.map_some]
      change (if s'.isActive op.id = true then _ else _) = _
      split
      · rfl
      · split
        · rfl
        · exact issueTilePerCore_relogged
            ((s'.moveLayer s'.requestRr op.id).enqueueLayer op requestId 0)
  · rfl

theorem refreshCore_relogged (core : Nat) (s : Scheduler) :
    refreshCore config (s.relogged log) core = (refreshCore config s core).map (relogged log) := by
  unfold refreshCore
  simp only
  change (if ((s.coreExecutableTileQueue core).isEmpty &&
    (s.executableTileQueue (config.partitionOf core)).isEmpty) = true then _ else _) = _
  split
  · rw [relogged_requestQueue]
    cases s.requestQueue.findIdx? (fun r => r.model.partitionId == config.partitionOf core) with
    | none => rfl
    | some i =>
      simp only
      rw [takeLayer_relogged]
      cases s.takeLayer i with
      | none => rfl
      | some r =>
        obtain ⟨op, requestId, s'⟩ := r
        simp only [Option.map_some]
        change (if s'.isActive op.id = true then _ else _) = _
        split
        · rfl
        · split
          · rfl
          · exact issueTilePerCoreIn_relogged _ _ _
              ((s'.moveLayer i op.id).enqueueLayer op requestId _)
  · rfl

theorem foldlM_relogged {f : Scheduler → Nat → Option Scheduler}
    (hf : ∀ s i, f (s.relogged log) i = (f s i).map (relogged log)) (l : List Nat) (s : Scheduler) :
    l.foldlM f (s.relogged log) = (l.foldlM f s).map (relogged log) := by
  induction l generalizing s with
  | nil => rfl
  | cons i l ih =>
    rw [List.foldlM_cons, List.foldlM_cons, hf]
    cases f s i with
    | none => rfl
    | some s' => exact ih s'

theorem refreshStatus_relogged (s : Scheduler) :
    refreshStatus config type (s.relogged log) = (refreshStatus config type s).map (relogged log) := by
  cases type with
  | simple =>
    simp only [refreshStatus, refreshSimple, dropFront_relogged, startSimple_relogged]
  | timeMultiplex => exact startTimeMultiplex_relogged s.dropFinished
  | partitionCpu =>
    simp only [refreshStatus, refreshPartitionCpu]
    change (if s.dropFinished.requestQueue.isEmpty = true then _ else _) = _
    split
    · rfl
    · exact foldlM_relogged (fun s i => refreshCore_relogged i s) _ s.dropFinished

theorem setLayerFinish_relogged (s : Scheduler) (l : Nat) (stat : LayerStat) :
    setLayerFinish type (s.relogged log) l stat = (setLayerFinish type s l stat).map (relogged log) := by
  cases type with
  | simple =>
    simp only [setLayerFinish]
    rw [relogged_requestQueue]
    cases s.requestQueue with
    | nil => rfl
    | cons r rest =>
      simp only
      cases r.model.setLayerFinish l <;> rfl
  | timeMultiplex | partitionCpu =>
    simp only [setLayerFinish]
    rw [relogged_requestQueue]
    cases s.requestQueue.mapM (fun r : Request => if r.requestId = stat.requestId then
      (r.model.setLayerFinish l).map fun m => { r with model := m } else some r) with
    | none => rfl
    | some queue =>
      simp only [Option.bind_eq_bind, Option.bind_some]
      split <;> rfl

theorem finishTile_relogged (s : Scheduler) (l : Nat) :
    finishTile config type (s.relogged log) l = (finishTile config type s l).map (relogged log) := by
  unfold finishTile
  rw [relogged_activeLayersMap]
  cases s.activeLayersMap.lookup l with
  | none => rfl
  | some stat =>
    simp only [Option.bind_eq_bind, Option.bind_some]
    split
    · rfl
    · split
      · have hstat : ∀ stat, (s.relogged log).setLayerStat l stat = ((s.setLayerStat l stat).relogged log) :=
          fun _ => rfl
        rw [hstat, setLayerFinish_relogged]
        cases setLayerFinish type (s.setLayerStat l _) l _ with
        | none => rfl
        | some s' => exact refreshStatus_relogged { s' with activeLayersMap := s'.activeLayersMap.erase l }
      · exact refreshStatus_relogged (s.setLayerStat l _)

theorem afterBar_relogged (s : Scheduler) (core p l : Nat) :
    afterBar config type (s.relogged log) core p l = (afterBar config type s core p l).map (relogged log) := by
  have hstat : (s.relogged log).layerStat l = s.layerStat l := rfl
  unfold afterBar
  rw [hstat]
  simp only
  split
  · exact finishTile_relogged (s.setLayerStat l _) l
  · exact issueTilePerCoreIn_relogged _ _ _ s

theorem scheduleModel_relogged (s : Scheduler) (requestId : Nat) (m : Model) :
    scheduleModel config type (s.relogged log) requestId m =
      (scheduleModel config type s requestId m).map (relogged log) :=
  refreshStatus_relogged { s with
    requestQueue := s.requestQueue ++ [{ requestId := requestId, model := m }] }

theorem getTile_relogged (s : Scheduler) (core : Nat) :
    getTile config type (s.relogged log) core =
      (getTile config type s core).map fun r => (r.1, (r.2.relogged log)) := by
  unfold getTile
  simp only [relogged_coreExecutableTileQueue, relogged_executableTileQueue]
  cases s.coreExecutableTileQueue core with
  | cons tile rest => rfl
  | nil =>
    cases s.executableTileQueue (config.partitionOf core) with
    | nil =>
      simp only [refreshStatus_relogged]
      cases refreshStatus config type s <;> rfl
    | cons tile rest =>
      have hstat : (s.relogged log).layerStat tile.layerId = s.layerStat tile.layerId := rfl
      have hpop : (s.relogged log).popBar (config.partitionOf core) tile =
        ((s.popBar (config.partitionOf core) tile).relogged log) := rfl
      simp only [hstat, hpop, afterBar_relogged]
      split
      · split
        · cases afterBar config type (s.popBar (config.partitionOf core) tile) core
            (config.partitionOf core) tile.layerId <;> rfl
        · rfl
      · rfl

/-- What a function that does not read the log does to a scheduler with another log, it does to the
scheduler, and it leaves the log as it is. -/
theorem of_relogged {f : Scheduler → Option Scheduler} {s u : Scheduler}
    (hf : ∀ log s, f (s.relogged log) = (f s).map (relogged log)) (h : f (s.relogged log) = some u) :
    ∃ v, f s = some v ∧ v.relogged log = u ∧ v.reported = s.reported := by
  rw [hf] at h
  obtain ⟨v, hv, rfl⟩ := Option.map_eq_some_iff.mp h
  have hself : f s = (f s).map (relogged s.reported) := hf s.reported s
  rw [hv] at hself
  have hlog : v = v.relogged s.reported := Option.some.inj hself
  exact ⟨v, hv, rfl, (congrArg Scheduler.reported hlog).trans rfl⟩

theorem getTile_of_relogged {s u : Scheduler} {core : Nat} {tile : Option Tile}
    (h : getTile config type (s.relogged log) core = some (tile, u)) :
    ∃ v, getTile config type s core = some (tile, v) ∧ v.relogged log = u ∧
      v.reported = s.reported := by
  rw [getTile_relogged] at h
  obtain ⟨⟨tile, v⟩, hv, heq⟩ := Option.map_eq_some_iff.mp h
  obtain ⟨rfl, rfl⟩ := Prod.mk.inj heq
  have hself : getTile config type s core =
      (getTile config type s core).map fun r => (r.1, r.2.relogged s.reported) :=
    getTile_relogged s core
  rw [hv] at hself
  have hlog : v = v.relogged s.reported := (Prod.mk.inj (Option.some.inj hself)).2
  exact ⟨v, hv, rfl, (congrArg Scheduler.reported hlog).trans rfl⟩

end Scheduler

namespace HalfSplit

variable {log : Nat → List Tile}

/-- The scheduler with another log of the reported tiles. -/
def relogged (log : Nat → List Tile) (s : HalfSplit) : HalfSplit := { s with reported := log }

section fields

variable (s : HalfSplit)

@[simp] theorem relogged_requestQueue : (s.relogged log).requestQueue = s.requestQueue := rfl

@[simp] theorem relogged_executableTileQueueTable :
    (s.relogged log).executableTileQueueTable = s.executableTileQueueTable := rfl

@[simp] theorem relogged_activeLayersMap : (s.relogged log).activeLayersMap = s.activeLayersMap := rfl

end fields

theorem startLayer_relogged (s : HalfSplit) (i : Nat) :
    (s.relogged log).startLayer i = (s.startLayer i).relogged log := by
  have hactive : ∀ l, (s.relogged log).isActive l = s.isActive l := fun _ => rfl
  unfold startLayer
  rw [relogged_requestQueue, relogged_executableTileQueueTable]
  cases s.requestQueue[i]? with
  | none => rfl
  | some r =>
    simp only
    split
    · cases r.model.getExecutableTile with
      | none => rfl
      | some p =>
        simp only [hactive]
        split <;> rfl
    · rfl

theorem refreshStatus_relogged (s : HalfSplit) :
    (s.relogged log).refreshStatus = s.refreshStatus.relogged log := by
  have hloop : ∀ (l : List Nat) (s : HalfSplit),
      l.foldl startLayer (s.relogged log) = (l.foldl startLayer s).relogged log := by
    intro l
    induction l with
    | nil => exact fun _ => rfl
    | cons i l ih =>
      intro s
      rw [List.foldl_cons, List.foldl_cons, startLayer_relogged, ih]
  exact hloop _ s.dropFinished

theorem scheduleModel_relogged (s : HalfSplit) (requestId : Nat) (m : Model) :
    (s.relogged log).scheduleModel requestId m = (s.scheduleModel requestId m).relogged log :=
  refreshStatus_relogged { s with
    requestQueue := s.requestQueue ++ [{ requestId := requestId, model := m }]
    executableTileQueueTable := Function.update s.executableTileQueueTable requestId [] }

theorem getTile_relogged (s : HalfSplit) (core : Nat) :
    (s.relogged log).getTile core = (s.getTile core).map fun r => (r.1, (r.2.relogged log)) := by
  unfold getTile
  rw [relogged_requestQueue, relogged_executableTileQueueTable]
  cases s.requestQueue[core % s.requestQueue.length]? with
  | none => rfl
  | some r =>
    simp only [Option.bind_eq_bind, Option.bind_some]
    cases s.executableTileQueueTable r.requestId with
    | nil => rfl
    | cons e rest =>
      simp only
      cases e.tile <;> rfl

theorem setLayerFinish_relogged (s : HalfSplit) (l : Nat) (stat : LayerStat) :
    (s.relogged log).setLayerFinish l stat = (s.setLayerFinish l stat).map (relogged log) := by
  unfold setLayerFinish
  rw [relogged_requestQueue]
  cases s.requestQueue.mapM (fun r : Request => if r.requestId = stat.requestId then
    (r.model.setLayerFinish l).map fun m => { r with model := m } else some r) with
  | none => rfl
  | some queue =>
    simp only [Option.bind_eq_bind, Option.bind_some]
    split <;> rfl

theorem finishTile_relogged (s : HalfSplit) (l : Nat) :
    (s.relogged log).finishTile l = (s.finishTile l).map (relogged log) := by
  unfold finishTile
  rw [relogged_activeLayersMap]
  cases s.activeLayersMap.lookup l with
  | none => rfl
  | some stat =>
    simp only [Option.bind_eq_bind, Option.bind_some]
    split
    · rfl
    · split
      · have hset : ∀ map, { (s.relogged log) with activeLayersMap := map } =
          ({ s with activeLayersMap := map } : HalfSplit).relogged log := fun _ => rfl
        rw [hset, setLayerFinish_relogged]
        cases setLayerFinish _ l _ with
        | none => rfl
        | some s' =>
          exact congrArg some
            (refreshStatus_relogged { s' with activeLayersMap := s'.activeLayersMap.erase l })
      · exact congrArg some (refreshStatus_relogged { s with activeLayersMap := _ })

theorem scheduleModel_reported (s : HalfSplit) (requestId : Nat) (m : Model) :
    (s.scheduleModel requestId m).reported = s.reported := by
  have hself : s.scheduleModel requestId m =
      (s.scheduleModel requestId m).relogged s.reported := scheduleModel_relogged s requestId m
  exact (congrArg HalfSplit.reported hself).trans rfl

theorem getTile_of_relogged {s u : HalfSplit} {core : Nat} {tile : Option Tile}
    (h : (s.relogged log).getTile core = some (tile, u)) :
    ∃ v, s.getTile core = some (tile, v) ∧ v.relogged log = u ∧ v.reported = s.reported := by
  rw [getTile_relogged] at h
  obtain ⟨⟨tile, v⟩, hv, heq⟩ := Option.map_eq_some_iff.mp h
  obtain ⟨rfl, rfl⟩ := Prod.mk.inj heq
  have hself : s.getTile core =
      (s.getTile core).map fun r => (r.1, r.2.relogged s.reported) := getTile_relogged s core
  rw [hv] at hself
  have hlog : v = v.relogged s.reported := (Prod.mk.inj (Option.some.inj hself)).2
  exact ⟨v, hv, rfl, (congrArg HalfSplit.reported hlog).trans rfl⟩

theorem finishTile_of_relogged {s u : HalfSplit} {l : Nat}
    (h : (s.relogged log).finishTile l = some u) :
    ∃ v, s.finishTile l = some v ∧ v.relogged log = u ∧ v.reported = s.reported := by
  rw [finishTile_relogged] at h
  obtain ⟨v, hv, rfl⟩ := Option.map_eq_some_iff.mp h
  have hself : s.finishTile l = (s.finishTile l).map (relogged s.reported) :=
    finishTile_relogged s l
  rw [hv] at hself
  have hlog : v = v.relogged s.reported := Option.some.inj hself
  exact ⟨v, hv, rfl, (congrArg HalfSplit.reported hlog).trans rfl⟩

end HalfSplit

end OnnxSim
