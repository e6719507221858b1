import OnnxSim.Operations.Elementwise

/-!
# Operations on shapes

`ShapeOp` of `ShapeOp.h` and `ShapeOp.cc`: the elements of the input are fetched and written back, tile by
tile, whatever the shape of the output is. A `Flatten` has a class of its own, so the attribute `axis` is
that of `Concat`.
-/

namespace OnnxSim

structure ShapeOp extends ElementwiseNode where
  optype : String
  inputs : List Operand
  /-- `node_proto.input_size()`. -/
  inputSize : Nat
  /-- The attribute `axis` of `Concat`. -/
  axis : Int := 0
  /-- The attribute `keepdims` of `ReduceSum`. -/
  keepdims : Bool := true

namespace ShapeOp

open ElementwiseNode

variable (op : ShapeOp)

/-- `get_input(id)->get_dims()`. -/
def inputDims (id : Nat) : Option (List Nat) := op.inputs[id]?.map (·.dims)

/-- `_input_shape`. -/
def inputShape : Option (List Nat) :=
  if op.optype = "Constant" ∨ op.optype = "ConstantOfShape" then some [1] else op.inputDims 0

/-- The output shape of a `Concat`. An axis that a shape does not have is `none`. -/
def concatShape : Option (List Nat) := do
  let shape ← op.inputDims 0
  if op.axis < 0 then none
  else
    let axis := op.axis.toNat
    let lengths ← (List.range op.inputSize).mapM fun i => do
      let dims ← op.inputDims i
      dims[axis]?
    if axis < shape.length then
      some (shape.set axis (lengths.foldl (fun sum n => wrap (sum + n)) 0))
    else none

/-- One dimension of the target of a `Reshape`: the shape so far, `known_product` and
`minus_one_idx`. -/
def reshapeStep (inputShape : List Nat) (st : List Nat × Nat × Option Nat) (dim : Nat) :
    Option (List Nat × Nat × Option Nat) :=
  let (shape, known, minusOne) := st
  if dim = 0 then do
    let n ← inputShape[shape.length]?
    some (shape ++ [n], wrap (known * n), minusOne)
  else if dim = 2 ^ 32 - 1 then some (shape ++ [1], known, some shape.length)
  else some (shape ++ [dim], wrap (known * dim), minusOne)

/-- The output shape of a `Reshape`, whose target is the shape of the second input. -/
def reshapeShape (inputShape : List Nat) : Option (List Nat) := do
  let target ← op.inputDims 1
  let (shape, known, minusOne) ← target.foldlM (reshapeStep inputShape) ([], 1, none)
  match minusOne with
  | none => some shape
  | some i => if known = 0 then none else some (shape.set i (flatten inputShape / known))

/-- The output shape of a `ReduceSum`: the last dimension goes. -/
def reduceShape (inputShape : List Nat) : List Nat :=
  let shape := if inputShape = [] then []
    else if op.keepdims then inputShape.dropLast ++ [1]
    else inputShape.dropLast
  if shape = [] then [1] else shape

/-- The output shape of a `Squeeze`. -/
def squeezeShape (inputShape : List Nat) : List Nat :=
  let shape := inputShape.filter (· ≠ 1)
  if shape = [] then [1] else shape

/-- `ShapeOp::resolve_output_shape`. A `Slice` whose output has a shape already makes
`redefine_tensor` throw. -/
def outputShape : Option (List Nat) := do
  let shape ← op.inputShape
  if op.optype = "Identity" ∨ op.optype = "Transpose" then some shape
  else if op.optype = "Shape" then some [shape.length]
  else if op.optype = "Expand" then op.inputDims 1
  else if op.optype = "Concat" then op.concatShape
  else if op.optype = "Reshape" then op.reshapeShape shape
  else if op.optype = "Slice" then some shape
  else if op.optype = "ReduceSum" then some (op.reduceShape shape)
  else if op.optype = "Unsqueeze" then some (shape ++ [1])
  else if op.optype = "Squeeze" then some (squeezeShape shape)
  else if op.optype = "Gather" then some shape
  else if op.optype = "Constant" ∨ op.optype = "ConstantOfShape" then some [1]
  else some shape

/-- `_dk`. -/
def dk (shape : List Nat) : Nat := flatten shape

/-- `_tokens_per_tile`. -/
def tokensPerTile (shape : List Nat) : Nat := op.tokensFor op.sramCapacity (dk shape)

def node : Node := op.nodeOf op.inputs op.found.isNone

def inputAddr : AddrType := op.node.getOperandAddr INPUT_OPERAND

def outputAddr : AddrType := op.node.getOperandAddr OUTPUT_OPERAND

def load (tokenOffset : Nat) (offs : List Nat) : Instruction :=
  movin SPAD_BASE (chunkAddrs op.inputAddr (tokenOffset * op.config.precision) offs) INPUT_OPERAND

def store (tokenOffset : Nat) (offs : List Nat) : Instruction :=
  movout SPAD_BASE (chunkAddrs op.outputAddr (tokenOffset * op.config.precision) offs)

/-- `ShapeOp::initialize_instructions`. -/
def initializeInstructions (tokenOffset tokens : Nat) : Option (List Instruction) := do
  let offs ← countUpInt (wrap (tokens * op.config.precision)) op.config.dramReqSize
  some ([op.load tokenOffset offs] ++ [] ++ [op.store tokenOffset offs])

/-- `ShapeOp::initialize_tiles`, after the constructor. -/
def initializeTiles : Option (List Tile) := do
  let shape ← op.inputShape
  let _ ← op.outputShape
  if op.config.precision = 0 then none
  else op.tileLoop (dk shape) (op.tokensPerTile shape) op.initializeInstructions

end ShapeOp

end OnnxSim
