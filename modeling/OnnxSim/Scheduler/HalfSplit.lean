import OnnxSim.Scheduler.Run

/-!
# The spatial split

`HalfSplitScheduler` of `Scheduler.cc`, which keeps a queue of tiles for each request and hands them
out to the cores that the request's place in the queue of requests gives them, and `Simulator::cycle`,
which issues the tiles it is handed. A failed assertion, a division by zero and the use of a null
pointer are `none`.
-/

namespace OnnxSim

/-- An element of a tile queue: a tile, or the null pointer that a tile moved out has left in its
operation. -/
structure QueueEntry where
  /-- The layer that the element was inserted for. -/
  layerId : Nat
  tile : Option Tile
  deriving Repr

/-- The elements of `_tiles`. -/
def Operation.entries (op : Operation) : List QueueEntry :=
  List.replicate op.moved { layerId := op.id, tile := none } ++
    op.tiles.map fun t => { layerId := op.id, tile := some t }

structure HalfSplit where
  requestQueue : List Request := []
  /-- `_executable_tile_queue_table`, by request. -/
  executableTileQueueTable : Nat → List QueueEntry := fun _ => []
  activeLayersMap : AList (fun _ : Nat => LayerStat) := ∅
  /-- The models that have left the queue. No function reads this field. -/
  left : List Model := []
  /-- The calls of `set_layer_finish`. No function reads this field. -/
  retired : List Nat := []
  /-- The tiles of each layer that have been inserted in the table. No function reads this field. -/
  entered : Nat → List Tile := fun _ => []
  /-- The tiles of each layer that the cores have reported finished. No function reads this field. -/
  reported : Nat → List Tile := fun _ => []

namespace HalfSplit

/-- `_active_layers_map[layer_id]`. -/
def layerStat (s : HalfSplit) (layerId : Nat) : LayerStat :=
  (s.activeLayersMap.lookup layerId).getD {}

def isActive (s : HalfSplit) (layerId : Nat) : Bool := (s.activeLayersMap.lookup layerId).isSome

/-- The requests whose models have finished leave the queue. -/
def dropFinished (s : HalfSplit) : HalfSplit :=
  { s with
    requestQueue := s.requestQueue.filter fun r => !r.model.checkFinish
    left := s.left ++ (s.requestQueue.filter fun r => r.model.checkFinish).map (·.model) }

/-- The tiles of a layer enter the queue of a request, and the layer becomes active. -/
def enqueueLayer (s : HalfSplit) (op : Operation) (requestId : Nat) : HalfSplit :=
  let queue := op.entries ++ s.executableTileQueueTable requestId
  { s with
    executableTileQueueTable := Function.update s.executableTileQueueTable requestId queue
    activeLayersMap := s.activeLayersMap.insert op.id
      { requestId := requestId
        totalTiles := queue.length
        remainTiles := queue.length
        finishedTiles := 0
        launchedTiles := 0 }
    entered := Function.update s.entered op.id (s.entered op.id ++ op.tiles) }

/-- The second loop of `refresh_status` at request `i`: a request with an empty queue starts its next
layer. -/
def startLayer (s : HalfSplit) (i : Nat) : HalfSplit :=
  match s.requestQueue[i]? with
  | none => s
  | some r =>
    if (s.executableTileQueueTable r.requestId).isEmpty then
      match r.model.getExecutableTile with
      | none => s
      | some (op, m) =>
        if s.isActive op.id then
          { s with requestQueue := s.requestQueue.set i { r with model := m } }
        else
          enqueueLayer { s with
            requestQueue := s.requestQueue.set i { r with model := m.moveTiles op.id } }
            op r.requestId
    else s

/-- `refresh_status`. -/
def refreshStatus (s : HalfSplit) : HalfSplit :=
  (List.range s.dropFinished.requestQueue.length).foldl startLayer s.dropFinished

/-- `schedule_model`; `requestId` is what `generate_id` returned. -/
def scheduleModel (s : HalfSplit) (requestId : Nat) (m : Model) : HalfSplit :=
  refreshStatus { s with
    requestQueue := s.requestQueue ++ [{ requestId := requestId, model := m }]
    executableTileQueueTable := Function.update s.executableTileQueueTable requestId [] }

/-- `get_tile`: the tile for core `coreId`, if there is one. -/
def getTile (s : HalfSplit) (coreId : Nat) : Option (Option Tile × HalfSplit) := do
  let r ← s.requestQueue[coreId % s.requestQueue.length]?
  match s.executableTileQueueTable r.requestId with
  | [] => some (none, s)
  | e :: rest => do
    let tile ← e.tile
    some (some tile, { s with
      executableTileQueueTable := Function.update s.executableTileQueueTable r.requestId rest
      activeLayersMap := s.activeLayersMap.insert tile.layerId (s.layerStat tile.layerId) })

/-- The request that a finished layer belongs to: its model is told, and its queue is erased. -/
def setLayerFinish (s : HalfSplit) (layerId : Nat) (stat : LayerStat) : Option HalfSplit := do
  let queue ← s.requestQueue.mapM fun r : Request =>
    if r.requestId = stat.requestId then
      (r.model.setLayerFinish layerId).map fun m => { r with model := m }
    else some r
  if s.requestQueue.any (·.requestId == stat.requestId) then
    some { s with
      requestQueue := queue
      executableTileQueueTable := Function.update s.executableTileQueueTable stat.requestId []
      retired := s.retired ++ [layerId] }
  else none

/-- `finish_tile`. -/
def finishTile (s : HalfSplit) (layerId : Nat) : Option HalfSplit := do
  let stat ← s.activeLayersMap.lookup layerId
  if stat.remainTiles = 0 then none
  else
    let stat := { stat with
      remainTiles := stat.remainTiles - 1, finishedTiles := stat.finishedTiles + 1 }
    let s := { s with activeLayersMap := s.activeLayersMap.insert layerId stat }
    if stat.remainTiles = 0 then do
      let s ← s.setLayerFinish layerId stat
      some (refreshStatus { s with activeLayersMap := s.activeLayersMap.erase layerId })
    else some s.refreshStatus

/-- A core has finished a tile. -/
def report (s : HalfSplit) (tile : Tile) : HalfSplit :=
  { s with
    reported := Function.update s.reported tile.layerId (s.reported tile.layerId ++ [tile]) }

end HalfSplit

/-! ## The system -/

/-- A scheduler and the tiles that have been issued to the cores and not reported. -/
structure HalfSystem where
  sched : HalfSplit := {}
  running : Nat → List Tile := fun _ => []
  /-- What `generate_id` returns is not below this. -/
  nextId : Nat := 0

namespace HalfSystem

/-- `Simulator::cycle` issues a tile to the core when its status is `INITIALIZED`. -/
def issued (running : Nat → List Tile) (core : Nat) : Option Tile → Nat → List Tile
  | none => running
  | some t =>
    if t.status = .INITIALIZED then Function.update running core (running core ++ [t]) else running

def step (config : SimulationConfig) (s : HalfSystem) : System.Act → Option HalfSystem
  | .scheduleModel requestId m _ =>
    if s.nextId ≤ requestId then
      some { s with sched := s.sched.scheduleModel requestId m, nextId := requestId + 1 }
    else none
  | .getTile core =>
    if core < config.numCores then do
      let (tile, sched) ← s.sched.getTile core
      some { s with sched := sched, running := issued s.running core tile }
    else none
  | .finishTile core i =>
    if core < config.numCores then do
      let t ← (s.running core)[i]?
      let sched ← (s.sched.report t).finishTile t.layerId
      some { s with
        sched := sched
        running := Function.update s.running core ((s.running core).eraseIdx i) }
    else none

def Run (config : SimulationConfig) (h : List (HalfSystem × System.Act)) (s : HalfSystem) : Prop :=
  Machine.Run (Machine.partialDet (step config)) {} h s

end HalfSystem

end OnnxSim
