import OnnxSim.Operations.Elementwise

/-!
# Operations on rows of tokens

`BiasAct` and `SkipLayerNorm`. Both cut their rows of `_dk` elements into tiles, at least two for each core,
and count the bytes of a tile with an `int` that is compared and advanced as a `uint32_t`. `BiasAct` fetches
the bias from behind the bytes of the input, and `SkipLayerNorm` writes to the addresses of its input.
-/

namespace OnnxSim

/-- What `BiasAct` and `SkipLayerNorm` have in common. -/
structure TokenOp extends ElementwiseNode where
  input : Operand
  /-- The constructor that reads an ONNX node, and not the attributes of a language model. -/
  fromNode : Bool
  /-- The activation halves the rows. -/
  llamaMlp : Bool := false

namespace TokenOp

open ElementwiseNode

variable (op : TokenOp)

/-- The constructor has made an output tensor. -/
def hasOutput : Bool := op.fromNode && op.found.isNone

/-- `_batch_size`, `_seq` and `_dk`. Without an output, `initialize_tiles` reads them again. -/
def sizes : Option (Nat × Nat × Nat) :=
  if op.fromNode ∧ op.input.dims.length ≠ 3 then none
  else if op.hasOutput then
    match op.input.dims with
    | batchSize :: seq :: dk :: _ => some (batchSize, seq, dk)
    | _ => none
  else
    match op.input.dims with
    | seq :: dk :: _ => some (1, seq, dk)
    | _ => none

/-- `_output_shape`. -/
def outputShape : List Nat :=
  if op.hasOutput ∨ !op.llamaMlp then op.input.dims
  else op.input.dims.set 1 (op.input.dims.getD 1 0 / 2)

/-- The output tensor, which `initialize_tiles` makes if the constructor has not. -/
def output : Operand := .create op.config op.outputShape op.outputAddress

/-- The last part of `calculate_loops`, which makes two tiles for each core. -/
def spread (seq total tokens : Nat) : Nat :=
  let tokens := if tokens > total then total else tokens
  let minTiles := wrap (op.config.numCores * 2)
  if ceilDiv seq tokens < minTiles then ceilDiv seq minTiles else tokens

/-- The offsets of the chunks of so many bytes. -/
def chunkOffs (bytes : Nat) : Option (List Nat) := countUp (wrap bytes) op.config.dramReqSize

/-- The set of `base + base_off + offset` for the values of an `int`. -/
def tokenAddrs (base : AddrType) (baseOff : Nat) (offs : List Nat) : List AddrType :=
  addrSet (offs.map fun off => base + word baseOff + signedWord off)

end TokenOp

/-- The activations of a `BiasAct`. -/
inductive Activation
  | gelu
  | relu
  | swish
  | softmax
  deriving Repr, DecidableEq

def Activation.opcode : Activation → Opcode
  | .gelu => .GELU
  | .relu => .COMP
  | .swish => .SWISH
  | .softmax => .SOFTMAX

/-- A `BiasAct` with a bias. The constructor that reads a node sets neither the activation nor
`_llama_mlp`: they may have any value. -/
structure BiasAct extends TokenOp where
  bias : Operand
  activation : Activation
  rest : List Operand := []

namespace BiasAct

open ElementwiseNode TokenOp

variable (op : BiasAct)

def node : Node := op.nodeOf (op.input :: op.bias :: op.rest) true

def firstAddr : AddrType := op.node.getOperandAddr INPUT_OPERAND

def secondAddr : AddrType := op.node.getOperandAddr (INPUT_OPERAND + 1)

def outputAddr : AddrType := op.node.getOperandAddr OUTPUT_OPERAND

/-- `_tokens_per_tile`: a tile has a token less than half of the scratchpad. -/
def tokensPerTile (batchSize seq dk : Nat) : Option Nat :=
  let sizePerToken := wrap (dk * op.config.precision)
  if sizePerToken = 0 then none
  else
    let tokens := wrapSub (op.sramCapacity / sizePerToken) 1
    if tokens = 0 then none else some (op.spread seq (wrap (seq * batchSize)) tokens)

def load (dk tokenOffset : Nat) (offs : List Nat) : Instruction :=
  movin SPAD_BASE (tokenAddrs op.firstAddr (tokenOffset * dk * op.config.precision) offs) INPUT_OPERAND

/-- Where the bias is fetched from. -/
def biasBase (seq dk : Nat) : AddrType := op.secondAddr + word (seq * dk * op.config.precision)

/-- The destination of the bias. -/
def sramBiasBase (dk tokens : Nat) : AddrType := SPAD_BASE + word (tokens * dk * op.config.precision)

def loadBias (seq dk tokens : Nat) (biasOffs : List Nat) : Instruction :=
  movin (op.sramBiasBase dk tokens) (tokenAddrs (op.biasBase seq dk) 0 biasOffs) (INPUT_OPERAND + 1)

/-- An instruction on a number of elements. -/
def compute (opcode : Opcode) (elems : Nat) (srcAddrs : List AddrType) : Instruction where
  opcode := opcode
  destAddr := SPAD_BASE
  size := wrap (elems * op.config.precision) / op.config.dramReqSize
  computeSize := wrap (elems * op.config.precision)
  srcAddrs := srcAddrs

def computes (dk tokens : Nat) : List Instruction :=
  let width := op.outputShape.getD 1 0
  [op.compute .ADD (dk * tokens) [SPAD_BASE, op.sramBiasBase dk tokens],
    op.compute op.activation.opcode (width * tokens) [SPAD_BASE]] ++
    if op.llamaMlp then [op.compute .MUL (width * tokens) [SPAD_BASE]] else []

def store (dk tokenOffset : Nat) (offs : List Nat) : Instruction :=
  movout SPAD_BASE (tokenAddrs op.outputAddr (tokenOffset * dk * op.config.precision) offs)

/-- `BiasAct::initialize_instructions`. -/
def initializeInstructions (seq dk tokenOffset tokens : Nat) : Option (List Instruction) :=
  if op.config.dramReqSize = 0 then none
  else do
    let offs ← op.chunkOffs (tokens * dk * op.config.precision)
    let biasOffs ← op.chunkOffs (dk * op.config.precision)
    some ([op.load dk tokenOffset offs, op.loadBias seq dk tokens biasOffs] ++ op.computes dk tokens ++
      [op.store dk tokenOffset offs])

/-- `BiasAct::initialize_tiles`. -/
def initializeTiles : Option (List Tile) := do
  let (batchSize, seq, dk) ← op.sizes
  let tokensPerTile ← op.tokensPerTile batchSize seq dk
  op.tileLoop (wrap (seq * batchSize)) tokensPerTile (op.initializeInstructions seq dk)

end BiasAct

/-- A `SkipLayerNorm`; the weight and the bias are among the inputs that no instruction reads. -/
structure SkipLayerNorm extends TokenOp where
  skip : Operand
  rest : List Operand := []

namespace SkipLayerNorm

open ElementwiseNode TokenOp

variable (op : SkipLayerNorm)

def node : Node := op.nodeOf (op.input :: op.skip :: op.rest) true

def inputAddr : AddrType := op.node.getOperandAddr INPUT_OPERAND

def skipAddr : AddrType := op.node.getOperandAddr (INPUT_OPERAND + 1)

/-- `_tokens_per_tile`. -/
def tokensPerTile (batchSize seq dk : Nat) : Option Nat :=
  let sizePerToken := wrap (dk * 2 * op.config.precision)
  if sizePerToken = 0 then none
  else
    let tokens := op.sramCapacity / sizePerToken
    if tokens = 0 then none else some (op.spread seq (wrap (seq * batchSize)) tokens)

def load (dk tokenOffset : Nat) (offs : List Nat) : Instruction :=
  movin SPAD_BASE (tokenAddrs op.inputAddr (tokenOffset * dk * op.config.precision) offs) INPUT_OPERAND

def sramBiasBase (dk tokens : Nat) : AddrType := SPAD_BASE + word (tokens * dk * op.config.precision)

def loadSkip (dk tokenOffset tokens : Nat) (offs : List Nat) : Instruction :=
  movin (op.sramBiasBase dk tokens)
    (tokenAddrs op.skipAddr (tokenOffset * dk * op.config.precision) offs) (INPUT_OPERAND + 1)

def computes (dk tokens : Nat) : List Instruction :=
  [{ opcode := .LAYERNORM
     destAddr := SPAD_BASE
     size := wrap (dk * op.config.precision)
     srcAddrs := [SPAD_BASE]
     tileM := tokens },
   { opcode := .ADD
     destAddr := SPAD_BASE
     size := wrap (tokens * dk * op.config.precision)
     srcAddrs := [SPAD_BASE, op.sramBiasBase dk tokens] }]

/-- The MOVOUT: its addresses are those of the input. The set of addresses of the output is computed and
not used. -/
def store (dk tokenOffset : Nat) (offs : List Nat) : Instruction :=
  movout SPAD_BASE (tokenAddrs op.inputAddr (tokenOffset * dk * op.config.precision) offs)

/-- `SkipLayerNorm::initialize_instructions`. -/
def initializeInstructions (dk tokenOffset tokens : Nat) : Option (List Instruction) := do
  let offs ← op.chunkOffs (tokens * dk * op.config.precision)
  some ([op.load dk tokenOffset offs, op.loadSkip dk tokenOffset tokens offs] ++
    op.computes dk tokens ++ [op.store dk tokenOffset offs])

/-- `SkipLayerNorm::initialize_tiles`. A node has at least four inputs. -/
def initializeTiles : Option (List Tile) := do
  if op.fromNode ∧ op.rest.length < 2 then none
  else
    let (batchSize, seq, dk) ← op.sizes
    let tokensPerTile ← op.tokensPerTile batchSize seq dk
    op.tileLoop (wrap (seq * batchSize)) tokensPerTile (op.initializeInstructions dk)

end SkipLayerNorm

end OnnxSim
