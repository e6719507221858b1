import Mathlib.Data.List.AList
import OnnxSim.Model

/-!
# The schedulers

`Scheduler`, `TimeMultiplexScheduler` and `DedicatedCPUScheduler` of `Scheduler.cc`, the schedulers
that hand out tiles with `Scheduler::get_tile`: they differ in `finish_tile` and `refresh_status`.
Names, start and finish cycles are left out. A model whose last layer has finished leaves the queue;
that a regressive one is registered again is left to the caller.
A failed assertion, an access out of bounds and the use of a null pointer are `none`. The counters
of tiles are natural numbers: a tile in a queue counts as remaining, so they never wrap.
-/

namespace OnnxSim

/-- `scheduler_type`: `simple`, `time_multiplex` and `partition_cpu`. -/
inductive SchedulerType
  | simple
  | timeMultiplex
  | partitionCpu
  deriving Repr, DecidableEq

structure Request where
  requestId : Nat
  model : Model

structure CoreLoad where
  tileCount : Nat
  insCount : Nat
  coreId : Nat
  deriving Repr, DecidableEq

/-- `other > load`: `load` leaves the queue before `other`. -/
def CoreLoad.before (load other : CoreLoad) : Bool :=
  if load.tileCount ≠ other.tileCount then load.tileCount < other.tileCount
  else if load.insCount ≠ other.insCount then load.insCount < other.insCount
  else load.coreId < other.coreId

structure LayerStat where
  requestId : Nat := 0
  totalTiles : Nat := 0
  remainTiles : Nat := 0
  finishedTiles : Nat := 0
  launchedTiles : Nat := 0
  deriving Repr, DecidableEq

structure Scheduler where
  requestQueue : List Request := []
  /-- `_executable_tile_queue`, by partition. -/
  executableTileQueue : Nat → List Tile := fun _ => []
  coreExecutableTileQueue : Nat → List Tile := fun _ => []
  activeLayersMap : AList (fun _ : Nat => LayerStat) := ∅
  /-- The entries of `core_pq`, one for each core. -/
  corePq : List CoreLoad
  tileNum : Nat → Nat := fun _ => 0
  insNum : Nat → Nat := fun _ => 0
  requestRr : Nat := 0
  /-- The calls of `finish_language_model`. -/
  langFinished : List Nat := []
  /-- The models that have left the queue. No function reads this field. -/
  left : List Model := []
  /-- The calls of `set_layer_finish`. No function reads this field. -/
  retired : List Nat := []
  /-- The tiles of each layer that have entered a partition queue. No function reads this field. -/
  entered : Nat → List Tile := fun _ => []
  /-- The tiles of each layer that have left the partition queue, in this order. No function reads
  this field. -/
  taken : Nat → List Tile := fun _ => []
  /-- The tiles of each layer that the cores have reported finished. No function reads this field. -/
  reported : Nat → List Tile := fun _ => []

/-- The instructions that count as load. -/
def Tile.validIns (t : Tile) : Nat := t.instructions.countP fun inst => decide (inst.opcode ≠ .BAR)

/-- `tile->core_id = core_id`. -/
def Tile.onCore (t : Tile) (coreId : Nat) : Tile := { t with coreId := coreId }

@[simp] theorem Tile.onCore_layerId (t : Tile) (coreId : Nat) :
    (t.onCore coreId).layerId = t.layerId := rfl

@[simp] theorem Tile.onCore_status (t : Tile) (coreId : Nat) :
    (t.onCore coreId).status = t.status := rfl

namespace Scheduler

def init (config : SimulationConfig) : Scheduler where
  corePq := (List.range config.numCores).map fun core =>
    { tileCount := 0, insCount := 0, coreId := core }

variable (config : SimulationConfig)

/-! ## The load of the cores -/

/-- `core_pq.top()`. -/
def topLoad (pq : List CoreLoad) : Option CoreLoad :=
  pq.find? fun load => pq.all fun other => !other.before load

/-- Counts the tile for core `coreId` and for the entry `top` of the queue. A tile to be skipped
does not count. -/
def countTile (s : Scheduler) (tile : Tile) (top : CoreLoad) (coreId : Nat) :
    Option (CoreLoad × Scheduler) :=
  if tile.skip then some (top, s)
  else if coreId < config.numCores then
    let tiles := s.tileNum coreId + 1
    let ins := s.insNum coreId + tile.validIns
    some ({ top with tileCount := tiles, insCount := ins }, { s with
      tileNum := Function.update s.tileNum coreId tiles
      insNum := Function.update s.insNum coreId ins })
  else none

/-- Moves `tile` from the front of a partition queue to the queue of a core. -/
def place (s : Scheduler) (partitionId : Nat) (tile : Tile) (coreId : Nat) : Scheduler :=
  { s with
    coreExecutableTileQueue := Function.update s.coreExecutableTileQueue coreId
      (s.coreExecutableTileQueue coreId ++ [tile.onCore coreId])
    executableTileQueue := Function.update s.executableTileQueue partitionId
      (s.executableTileQueue partitionId).tail
    taken := Function.update s.taken tile.layerId (s.taken tile.layerId ++ [tile.onCore coreId]) }

/-- An iteration of `issue_tile_per_core`: `tile`, the front of the partition queue, goes to the
least loaded core. The overload for a partition adds an offset to the number of that core, and
`remap` takes the sum to a core of the partition. -/
def issueTile (remap : Nat → Nat) (offset partitionId : Nat) (s : Scheduler) (tile : Tile) :
    Option Scheduler := do
  let top ← topLoad s.corePq
  let (load, s') ← countTile config s tile top (top.coreId + offset)
  some { s'.place partitionId tile (remap (top.coreId + offset)) with
    corePq := s.corePq.erase top ++ [load] }

/-- The loop of `issue_tile_per_core` over the `n` tiles of the partition queue, up to a barrier. -/
def issueLoop (remap : Nat → Nat) (offset partitionId : Nat) : Nat → Scheduler → Option Scheduler
  | 0, s => some s
  | n + 1, s =>
    match s.executableTileQueue partitionId with
    | [] => some s
    | tile :: _ =>
      if tile.status = .BAR then some s
      else do
        let s ← issueTile config remap offset partitionId s tile
        issueLoop remap offset partitionId n s

/-- `issue_tile_per_core()`. -/
def issueTilePerCore (s : Scheduler) : Option Scheduler :=
  issueLoop config id 0 0 (s.executableTileQueue 0).length s

/-- `issue_tile_per_core(allowed_cpu, offset, partition_id)`. -/
def issueTilePerCoreIn (allowedCpu : List Nat) (offset partitionId : Nat) (s : Scheduler) :
    Option Scheduler :=
  if allowedCpu = [] then none
  else
    issueLoop config (fun core => allowedCpu.getD (core % allowedCpu.length) 0) offset partitionId
      (s.executableTileQueue partitionId).length s

/-! ## Layers -/

/-- `_active_layers_map[layer_id]`. -/
def layerStat (s : Scheduler) (layerId : Nat) : LayerStat :=
  (s.activeLayersMap.lookup layerId).getD {}

def setLayerStat (s : Scheduler) (layerId : Nat) (stat : LayerStat) : Scheduler :=
  { s with activeLayersMap := s.activeLayersMap.insert layerId stat }

/-- The tiles of a layer enter a partition queue, and the layer becomes active. -/
def enqueueLayer (s : Scheduler) (op : Operation) (requestId partitionId : Nat) : Scheduler :=
  let queue := s.executableTileQueue partitionId ++ op.tiles
  { s with
    executableTileQueue := Function.update s.executableTileQueue partitionId queue
    activeLayersMap := s.activeLayersMap.insert op.id
      { requestId := requestId
        totalTiles := queue.length
        remainTiles := queue.length
        finishedTiles := 0
        launchedTiles := 0 }
    entered := Function.update s.entered op.id (s.entered op.id ++ op.tiles) }

/-- `tile_queue_empty`. -/
def tileQueueEmpty (s : Scheduler) : Bool :=
  (List.range config.numCores).all (fun core => (s.coreExecutableTileQueue core).isEmpty) &&
    (s.executableTileQueue 0).isEmpty

/-- `count_active_layers`. -/
def countActiveLayers (s : Scheduler) : Nat := s.activeLayersMap.entries.length

/-- The model of request `i` after its next layer has been taken. -/
def setModel (s : Scheduler) (i : Nat) (m : Model) : Scheduler :=
  { s with requestQueue := s.requestQueue.modify i fun r => { r with model := m } }

/-- `get_executable_tile` of the model of request `i`, with the request's id. -/
def takeLayer (s : Scheduler) (i : Nat) : Option (Operation × Nat × Scheduler) := do
  let r ← s.requestQueue[i]?
  let (op, m) ← r.model.getExecutableTile
  some (op, r.requestId, s.setModel i m)

/-- The tiles of a layer are moved out of the model of request `i`. -/
def moveLayer (s : Scheduler) (i layerId : Nat) : Scheduler :=
  { s with requestQueue := s.requestQueue.modify i fun r =>
      { r with model := r.model.moveTiles layerId } }

/-- The tiles of a layer are moved out of the front model, and cleared there. -/
def clearLayer (s : Scheduler) (layerId : Nat) : Scheduler :=
  { s with requestQueue := s.requestQueue.modify 0 fun r =>
      { r with model := r.model.clearTiles layerId } }

/-- The front request leaves the queue when its model has finished, and a language model is reported
to the simulator. -/
def dropFront (s : Scheduler) : Scheduler :=
  match s.requestQueue with
  | [] => s
  | r :: rest =>
    if r.model.checkFinish then
      { s with
        requestQueue := rest
        langFinished := s.langFinished ++ if r.model.language then [r.model.id] else []
        left := s.left ++ [r.model] }
    else s

/-- The requests whose models have finished leave the queue. -/
def dropFinished (s : Scheduler) : Scheduler :=
  { s with
    requestQueue := s.requestQueue.filter fun r => !r.model.checkFinish
    left := s.left ++ (s.requestQueue.filter fun r => r.model.checkFinish).map (·.model) }

def isActive (s : Scheduler) (layerId : Nat) : Bool := (s.activeLayersMap.lookup layerId).isSome

/-- The second half of `Scheduler::refresh_status`. -/
def startSimple (s : Scheduler) : Option Scheduler :=
  if !s.requestQueue.isEmpty && tileQueueEmpty config s && s.countActiveLayers == 0 then
    match s.takeLayer 0 with
    | none => some s
    | some (op, _, s) =>
      if op.moved ≠ 0 then none
      else issueTilePerCore config ((s.clearLayer op.id).enqueueLayer op 0 0)
  else some s

/-- `Scheduler::refresh_status`. -/
def refreshSimple (s : Scheduler) : Option Scheduler := startSimple config s.dropFront

/-- `_request_rr = (_request_rr + 1) % _request_queue.size()`. -/
def nextRequest (s : Scheduler) : Scheduler :=
  { s with requestRr := (s.requestRr + 1) % s.requestQueue.length }

/-- The second half of `TimeMultiplexScheduler::refresh_status`. -/
def startTimeMultiplex (s : Scheduler) : Option Scheduler :=
  if !s.requestQueue.isEmpty && tileQueueEmpty config s then
    match s.nextRequest.takeLayer s.nextRequest.requestRr with
    | none => some s.nextRequest
    | some (op, requestId, s) =>
      if s.isActive op.id then some s
      else if op.moved ≠ 0 then none
      else
        issueTilePerCore config ((s.moveLayer s.requestRr op.id).enqueueLayer op requestId 0)
  else some s

/-- `TimeMultiplexScheduler::refresh_status`. -/
def refreshTimeMultiplex (s : Scheduler) : Option Scheduler :=
  startTimeMultiplex config s.dropFinished

/-- What `DedicatedCPUScheduler::refresh_status` does for core `core`: when it has nothing to do,
the next layer of the first model of its partition is issued. -/
def refreshCore (s : Scheduler) (core : Nat) : Option Scheduler :=
  let partitionId := config.partitionOf core
  if (s.coreExecutableTileQueue core).isEmpty && (s.executableTileQueue partitionId).isEmpty then
    match s.requestQueue.findIdx? (fun r => r.model.partitionId == partitionId) with
    | none => some s
    | some i =>
      match s.takeLayer i with
      | none => some s
      | some (op, requestId, s) =>
        if s.isActive op.id then some s
        else if op.moved ≠ 0 then none
        else
          issueTilePerCoreIn config (config.partitionMap partitionId)
            ((config.partitionMap partitionId).idxOf core) partitionId
            ((s.moveLayer i op.id).enqueueLayer op requestId partitionId)
  else some s

/-- `DedicatedCPUScheduler::refresh_status`. -/
def refreshPartitionCpu (s : Scheduler) : Option Scheduler :=
  if s.dropFinished.requestQueue.isEmpty then some s.dropFinished
  else (List.range config.numCores).foldlM (refreshCore config) s.dropFinished

def refreshStatus (type : SchedulerType) (s : Scheduler) : Option Scheduler :=
  match type with
  | .simple => refreshSimple config s
  | .timeMultiplex => refreshTimeMultiplex config s
  | .partitionCpu => refreshPartitionCpu config s

/-- `schedule_model`; `requestId` is what `generate_id` returned. -/
def scheduleModel (type : SchedulerType) (s : Scheduler) (requestId : Nat) (m : Model) :
    Option Scheduler :=
  refreshStatus config type
    { s with requestQueue := s.requestQueue ++ [{ requestId := requestId, model := m }] }

/-- The model that a finished layer belongs to: the front one, or those with the layer's request. -/
def setLayerFinish (type : SchedulerType) (s : Scheduler) (layerId : Nat) (stat : LayerStat) :
    Option Scheduler :=
  match type with
  | .simple =>
    match s.requestQueue with
    | [] => none
    | r :: rest => do
      let m ← r.model.setLayerFinish layerId
      some { s with
        requestQueue := { r with model := m } :: rest
        retired := s.retired ++ [layerId] }
  | .timeMultiplex | .partitionCpu => do
    let finish := fun r : Request =>
      if r.requestId = stat.requestId then
        (r.model.setLayerFinish layerId).map fun m => { r with model := m }
      else some r
    let queue ← s.requestQueue.mapM finish
    if s.requestQueue.any (·.requestId == stat.requestId) then
      some { s with requestQueue := queue, retired := s.retired ++ [layerId] }
    else none

/-- `finish_tile`. -/
def finishTile (type : SchedulerType) (s : Scheduler) (layerId : Nat) : Option Scheduler := do
  let stat ← s.activeLayersMap.lookup layerId
  if stat.remainTiles = 0 then none
  else
    let stat := { stat with
      remainTiles := stat.remainTiles - 1, finishedTiles := stat.finishedTiles + 1 }
    let s := s.setLayerStat layerId stat
    if stat.remainTiles = 0 then do
      let s ← setLayerFinish type s layerId stat
      refreshStatus config type { s with activeLayersMap := s.activeLayersMap.erase layerId }
    else refreshStatus config type s

/-- A core has finished a tile. -/
def report (s : Scheduler) (tile : Tile) : Scheduler :=
  { s with
    reported := Function.update s.reported tile.layerId (s.reported tile.layerId ++ [tile]) }

/-! ## Handing out tiles -/

/-- The barrier at the front of the partition queue is popped. -/
def popBar (s : Scheduler) (partitionId : Nat) (tile : Tile) : Scheduler :=
  let stat := s.layerStat tile.layerId
  { s with
    executableTileQueue := Function.update s.executableTileQueue partitionId
      (s.executableTileQueue partitionId).tail
    activeLayersMap := s.activeLayersMap.insert tile.layerId { stat with
      launchedTiles := stat.launchedTiles + 1
      finishedTiles := stat.finishedTiles + 1
      remainTiles := stat.remainTiles - 1 }
    taken := Function.update s.taken tile.layerId (s.taken tile.layerId ++ [tile]) }

/-- What follows a popped barrier: the layer finishes, or its next tiles are issued. -/
def afterBar (type : SchedulerType) (s : Scheduler) (coreId partitionId layerId : Nat) :
    Option Scheduler :=
  let stat := s.layerStat layerId
  if stat.remainTiles = 0 then
    finishTile config type (s.setLayerStat layerId { stat with remainTiles := 1 }) layerId
  else
    let allowedCpu := config.partitionMap partitionId
    issueTilePerCoreIn config allowedCpu (allowedCpu.idxOf coreId) partitionId s

/-- `get_tile`: the tile for core `coreId`, if there is one. -/
def getTile (type : SchedulerType) (s : Scheduler) (coreId : Nat) :
    Option (Option Tile × Scheduler) :=
  let partitionId := config.partitionOf coreId
  match s.coreExecutableTileQueue coreId, s.executableTileQueue partitionId with
  | [], [] => do
    let s ← refreshStatus config type s
    some (none, s)
  | tile :: rest, _ =>
    let stat := s.layerStat tile.layerId
    some (some tile, { s.setLayerStat tile.layerId
        { stat with launchedTiles := stat.launchedTiles + 1 } with
      coreExecutableTileQueue := Function.update s.coreExecutableTileQueue coreId rest })
  | [], tile :: _ =>
    if tile.status = .BAR then
      let stat := s.layerStat tile.layerId
      if stat.launchedTiles = stat.finishedTiles then do
        let s ← afterBar config type (s.popBar partitionId tile) coreId partitionId tile.layerId
        some (none, s)
      else some (none, s.setLayerStat tile.layerId stat)
    else some (none, s)

end Scheduler

end OnnxSim
