import OnnxSim.Common

/-!
# A model

`Model` of `Model.h` with the part of `Operation` and `Tensor` that the schedulers use: the graph of
operations, which of them may start, and the tiles of each. What reads the ONNX file, allocates
tensors and counts time is left out.
-/

namespace OnnxSim

/-- A tensor: whether it has been produced, and the operations that read it. -/
structure Tensor where
  produced : Bool := false
  childNodes : List Nat := []
  deriving Repr

/-- An operation of the graph, a layer to the schedulers. -/
structure Operation where
  id : Nat
  inputs : List Nat := []
  outputs : List Nat := []
  tiles : List Tile := []
  /-- The null pointers that tiles moved out of `_tiles` have left there. -/
  moved : Nat := 0
  finish : Bool := false
  deriving Repr

structure Model where
  tensorMap : Nat → Tensor := fun _ => {}
  operationMap : List Operation
  executableLayer : List Nat
  partitionId : Nat := 0
  id : Nat := 0
  /-- `check_language_model`. -/
  language : Bool := false

namespace Model

def findOperation (m : Model) (id : Nat) : Option Operation := m.operationMap.find? (·.id == id)

/-- `Operation::check_executable`: every input has been produced. -/
def checkExecutable (m : Model) (op : Operation) : Bool :=
  op.inputs.all fun t => (m.tensorMap t).produced

/-- `Operation::get_child_nodes`. -/
def childNodes (m : Model) (op : Operation) : List Nat :=
  op.outputs.flatMap fun t => (m.tensorMap t).childNodes

/-- `Operation::set_finish`. -/
def setFinish (m : Model) (op : Operation) : Model :=
  { m with
    tensorMap := fun t =>
      if t ∈ op.outputs then { m.tensorMap t with produced := true } else m.tensorMap t
    operationMap := m.operationMap.map fun o => if o.id = op.id then { o with finish := true } else o }

/-- The loop of `set_layer_finish`: the children that have become executable. -/
def pushExecutable (m : Model) : List Nat → Option Model
  | [] => some m
  | id :: rest => do
    let op ← m.findOperation id
    let m := if m.checkExecutable op && !m.executableLayer.contains id then
      { m with executableLayer := m.executableLayer ++ [id] } else m
    pushExecutable m rest

/-- `Model::set_layer_finish`. -/
def setLayerFinish (m : Model) (id : Nat) : Option Model := do
  let op ← m.findOperation id
  let m := m.setFinish op
  m.pushExecutable (m.childNodes op)

/-- `Model::get_executable_tile`: the next operation, taken out of the executable ones. -/
def getExecutableTile (m : Model) : Option (Operation × Model) :=
  match m.executableLayer with
  | [] => none
  | id :: rest => do
    let op ← m.findOperation id
    some (op, { m with executableLayer := rest })

/-- The tiles are moved out of an operation. -/
def moveTiles (m : Model) (id : Nat) : Model :=
  { m with operationMap := m.operationMap.map fun o =>
      if o.id = id then { o with tiles := [], moved := o.moved + o.tiles.length } else o }

/-- The tiles are moved out of an operation, and `clear_tiles` is called. -/
def clearTiles (m : Model) (id : Nat) : Model :=
  { m with operationMap := m.operationMap.map fun o =>
      if o.id = id then { o with tiles := [], moved := 0 } else o }

/-- `Model::check_finish`. -/
def checkFinish (m : Model) : Bool := m.operationMap.all (·.finish)

end Model

end OnnxSim
