import OnnxSim.Operations.Basic

/-!
# The tiling of a matrix multiplication

`GemmWS::initialize_tiles` and `GemmWS::initialize_instructions`. The estimates that are only logged
are left out.
-/

namespace OnnxSim

structure GemmWS extends Node where
  inputShape : List Nat
  weightShape : List Nat
  outputShape : List Nat
  hasBias : Bool := true
  cdimW : Nat := 0
  mdim : Nat := 1

namespace GemmWS

variable (op : GemmWS) (tile : Tile) (mapping : Mapping)

/-- `loop_size`. -/
def loopSize : Nat := (op.config.coreConfig op.targetCore).coreHeight

def elemsPerAccess : Nat := op.config.dramReqSize / op.config.precision

/-- A number of elements in bytes. -/
def bytes (elems : Nat) : AddrType := word (elems * op.config.precision)

def mOffset (ms : Nat) : Nat := tile.M * mapping.tileInLoop.M + ms

def mLoop (ms : Nat) : Nat := within (mOffset tile mapping ms) op.loopSize mapping.totalLoop.M

/-- The values of `Ms`, up to the `break`. -/
def mSteps : List Nat :=
  (steps mapping.tileInLoop.M op.loopSize).takeWhile fun ms => op.mLoop tile mapping ms ≠ 0

def nOffset (ns : Nat) : Nat := tile.batch * mapping.tileInLoop.N + ns

def nLoop (ns : Nat) : Nat := within (nOffset tile mapping ns) op.loopSize mapping.totalLoop.N

def nSteps : List Nat :=
  (steps mapping.tileInLoop.N op.loopSize).takeWhile fun ns => op.nLoop tile mapping ns ≠ 0

def cOffset (cs : Nat) : Nat := tile.C * mapping.tileInLoop.C + cs

def cInLoop (cs : Nat) : Nat :=
  within (cOffset tile mapping cs) mapping.tileInLoop.C mapping.totalLoop.C

/-- The values of `Cs`: the whole of the dimension is one step. -/
def cSteps : List Nat := steps mapping.tileInLoop.C mapping.tileInLoop.C

def actSpAddr (ns cs : Nat) : AddrType := SPAD_BASE + op.bytes (ns * mapping.tileInLoop.C + cs)

def weightSpAddr (ms cs : Nat) : AddrType :=
  SPAD_BASE + op.bytes (mapping.tileInLoop.N * mapping.tileInLoop.C) +
    op.bytes (ms * mapping.tileInLoop.C + cs)

def outSpAddr (ns ms : Nat) : AddrType :=
  ACCUM_SPAD_BASE + op.bytes (ns * mapping.tileInLoop.M + ms)

/-- The index of an element of the input or the output. -/
def index (shape : List Nat) (n c : Nat) : List Nat :=
  match shape with
  | [_, rows, _] => [n / rows, n % rows, c]
  | _ => [n, c]

/-- MOVIN BIAS -/
def biasMovin (ms : Nat) : Instruction :=
  let bias := ((steps (op.mLoop tile mapping ms) op.elemsPerAccess).map (mOffset tile mapping ms + ·))
    |>.filter (· < mapping.totalLoop.M)
    |>.map fun m => op.getOperandAddr (INPUT_OPERAND + 2) + op.config.alignAddress (op.bytes m)
  { opcode := .MOVIN
    destAddr := ACCUM_SPAD_BASE + op.bytes ms
    size := bias.length
    srcAddrs := bias
    operandId := INPUT_OPERAND + 2 }

/-- MOVIN Weights -/
def weightMovin (ms cs : Nat) : Option Instruction := do
  let addrs ← ((List.range (op.mLoop tile mapping ms)).flatMap fun m =>
      (steps (cInLoop tile mapping cs) op.elemsPerAccess).map fun c => (m, c)).mapM fun p =>
    op.makeAddress [mOffset tile mapping ms + p.1, cOffset tile mapping cs + p.2]
      [op.weightShape.getD op.mdim 0, op.weightShape.getD op.cdimW 0]
  let weights := addrSet (addrs.map (op.getOperandAddr (INPUT_OPERAND + 1) + ·))
  some {
    opcode := .MOVIN
    destAddr := op.weightSpAddr mapping ms cs
    size := weights.length
    srcAddrs := weights
    operandId := INPUT_OPERAND + 1
    tileM := mapping.tileInLoop.M
    tileK := mapping.tileInLoop.C }

/-- MOVIN Activation -/
def activationMovin (ns cs : Nat) : Option Instruction := do
  let addrs ← ((List.range (op.nLoop tile mapping ns)).flatMap fun n =>
      (steps (cInLoop tile mapping cs) op.elemsPerAccess).map fun c => (n, c)).mapM fun p =>
    op.makeAddress
      (index op.inputShape (nOffset tile mapping ns + p.1) (cOffset tile mapping cs + p.2))
      op.inputShape
  let inputs := addrSet (addrs.map (op.getOperandAddr INPUT_OPERAND + ·))
  some {
    opcode := .MOVIN
    destAddr := op.actSpAddr mapping ns cs
    size := inputs.length
    srcAddrs := inputs
    operandId := INPUT_OPERAND
    tileK := mapping.tileInLoop.C
    tileN := mapping.tileInLoop.N }

/-- The loads of the step `Ms`: the activations come with the first one only. -/
def loads (ms : Nat) : Option (List Instruction) := do
  let bias := if !tile.accum && op.hasBias then [op.biasMovin tile mapping ms] else []
  let rest ← (cSteps mapping).mapM fun cs => do
    let weights ← op.weightMovin tile mapping ms cs
    let inputs ← if ms = 0 then
        (op.nSteps tile mapping).mapM fun ns => op.activationMovin tile mapping ns cs
      else some []
    some (weights :: inputs)
  some (bias ++ rest.flatten)

/-- Compute -/
def computes (ms : Nat) : List Instruction :=
  (cSteps mapping).flatMap fun cs => (op.nSteps tile mapping).flatMap fun ns =>
    (steps (cInLoop tile mapping cs) op.loopSize).map fun c =>
      { opcode := .GEMM_PRELOAD
        destAddr := op.outSpAddr mapping ns ms
        size := op.nLoop tile mapping ns
        computeSize := op.nLoop tile mapping ns
        srcAddrs := [op.actSpAddr mapping ns cs, op.weightSpAddr mapping ms cs]
        tileM := op.mLoop tile mapping ms
        tileK := min (cInLoop tile mapping cs - c) op.loopSize
        tileN := op.nLoop tile mapping ns }

/-- MOVOUT -/
def movout (ms ns : Nat) : Option Instruction := do
  let addrs ← ((List.range (op.nLoop tile mapping ns)).flatMap fun n =>
      (steps (op.mLoop tile mapping ms) op.elemsPerAccess).map fun m => (n, m)).mapM fun p =>
    op.makeAddress
      (index op.outputShape (nOffset tile mapping ns + p.1) (mOffset tile mapping ms + p.2))
      op.outputShape
  let outputs := addrSet (addrs.map (op.getOperandAddr OUTPUT_OPERAND + ·))
  some {
    opcode := .MOVOUT
    destAddr := op.outSpAddr mapping ns ms
    size := outputs.length
    srcAddrs := outputs
    operandId := OUTPUT_OPERAND }

/-- The stores: the tiles that reach the end of the dimension `C` write the output block. -/
def stores : Option (List Instruction) := do
  if cOffset tile mapping 0 + mapping.tileInLoop.C ≥ mapping.totalLoop.C then
    let outs ← (op.mSteps tile mapping).mapM fun ms =>
      (op.nSteps tile mapping).mapM fun ns => op.movout tile mapping ms ns
    some outs.flatten
  else some []

/-- `GemmWS::initialize_instructions`. -/
def initializeInstructions : Option (List Instruction) := do
  if op.loopSize = 0 ∨ op.elemsPerAccess = 0 then none
  else
    let loads ← (op.mSteps tile mapping).mapM (op.loads tile mapping)
    let stores ← op.stores tile mapping
    some (loads.flatten ++ (op.mSteps tile mapping).flatMap (op.computes tile mapping) ++ stores)

/-- The body of the loops of `initialize_tiles`: an output block, the tiles with `C = 0` and what
follows, changes the core. A tile without instructions is dropped. -/
def initializeTile (st : Int × List Tile) (loop : Nat × Nat × Nat) :
    Option (Int × List Tile) := do
  let (n, m, c) := loop
  let coreId := if c = 0 then (st.1 + 1) % op.config.numCores else st.1
  let tile : Tile :=
    { status := .INITIALIZED
      layerId := op.id
      batch := n
      Q := 1
      P := 1
      M := m
      C := c
      S := 1
      R := 1
      accum := c ≠ 0
      coreId := coreId }
  let instructions ← op.initializeInstructions tile mapping
  if instructions = [] then some (coreId, st.2)
  else some (coreId, st.2 ++ [{ tile with instructions := instructions }])

/-- The output blocks in the order of the loops. -/
def blockLoops : List (Nat × Nat) :=
  (List.range mapping.tileOutLoop.N).flatMap fun n =>
    (List.range mapping.tileOutLoop.M).map fun m => (n, m)

/-- The tiles of an output block in the order of the loop over `C`. -/
def reductionLoop (block : Nat × Nat) : List (Nat × Nat × Nat) :=
  (List.range mapping.tileOutLoop.C).map fun c => (block.1, block.2, c)

/-- `GemmWS::initialize_tiles`. -/
def initializeTiles : Option (List Tile) := do
  let st ← ((blockLoops mapping).flatMap (reductionLoop mapping)).foldlM
    (op.initializeTile mapping) (-1, [])
  some st.2

end GemmWS

end OnnxSim
