import OnnxSim.Operations.Basic

/-!
# The tiling of a convolution

`ConvWS::initialize_tiles` for group 1 and `ConvWS::initialize_instructions`. The tiling of a grouped
convolution, which makes one tile a group, is left out.
-/

namespace OnnxSim

structure ConvWS extends Node where
  kernelShape : List Nat
  strides : List Nat
  dilations : List Nat
  pads : List Nat
  inputShape : List Nat
  weightShape : List Nat
  convOutShape : List Nat
  poolFused : Bool := false
  poolKernelShape : List Nat := []
  poolOutShape : List Nat := []

namespace ConvWS

variable (op : ConvWS) (tile : Tile) (mapping : Mapping)

def loopSize : Nat := (op.config.coreConfig op.targetCore).coreWidth

/-! ## Addresses -/

def cdim : Nat := match op.config.layout with | .NCHW => 1 | .NHWC => 3

def hdim : Nat := match op.config.layout with | .NCHW => 2 | .NHWC => 1

def wdim : Nat := match op.config.layout with | .NCHW => 3 | .NHWC => 2

/-- `ConvWS::make_activation_address`. -/
def makeActivationAddress (n h w c : Nat) (shape : List Nat) : AddrType :=
  let dimC := shape.getD op.cdim 0
  let dimH := shape.getD op.hdim 0
  let dimW := shape.getD op.wdim 0
  match op.config.layout with
  | .NCHW => op.config.alignAddress
      (word ((n * dimC * dimH * dimW + c * dimH * dimW + h * dimW + w) * op.config.precision))
  | .NHWC => op.config.alignAddress
      (word ((n * dimH * dimW * dimC + h * dimW * dimC + w * dimC + c) * op.config.precision))

/-- `padded_C`. -/
def paddedC (dimC : Nat) : Nat :=
  if dimC % op.loopSize ≠ 0 then dimC + (op.loopSize - dimC % op.loopSize) else dimC

/-- `ConvWS::make_weight_address`. -/
def makeWeightAddress (s r m c : Nat) (shape : List Nat) : AddrType :=
  let dimC := shape.getD 1 0
  let dimS := shape.getD 2 0
  let dimR := shape.getD 3 0
  match op.config.layout with
  | .NCHW => op.config.alignAddress
      (word ((m * dimC * dimS * dimR + c * dimS * dimR + s * dimR + r) * op.config.precision))
  | .NHWC => op.config.alignAddress
      (word ((m / op.loopSize * dimS * dimR * op.paddedC dimC + s * dimR * op.paddedC dimC +
        r * op.paddedC dimC + c) * op.config.precision))

/-! ## The loops -/

/-- `input_h_size` for axis 0, `input_w_size` for axis 1. -/
def inputSize (axis len : Nat) : Nat :=
  (((len : Int) - 1) * op.strides.getD axis 0 +
    op.dilations.getD axis 0 * (op.kernelShape.getD axis 0 - 1) + 1).toNat

/-- `input_h_offset` for axis 0, `input_w_offset` for axis 1. -/
def inputOffset (axis offset : Nat) : Int :=
  offset - (op.dilations.getD axis 0 * (op.kernelShape.getD axis 0 - 1) / 2 : Nat)

/-- The steps of a loop over one dimension of the tile, with their lengths. -/
def dimSteps (len offset total step : Nat) : List (Nat × Nat) :=
  ((steps len step).filter fun i => i + offset < total).map fun i =>
    (i, min (len - i) (min (total - offset - i) step))

def mSteps : List (Nat × Nat) :=
  dimSteps mapping.tileInLoop.M (tile.M * mapping.tileInLoop.M) mapping.totalLoop.M op.loopSize

def cSteps : List (Nat × Nat) :=
  dimSteps mapping.tileInLoop.C (tile.C * mapping.tileInLoop.C) mapping.totalLoop.C op.loopSize

/-- `q_loop_size`. -/
def qLoopSize : Nat := if op.poolFused then op.poolKernelShape.getD 0 0 else op.loopSize

/-- `p_loop_size`. -/
def pLoopSize : Nat := if op.poolFused then op.poolKernelShape.getD 1 0 else op.loopSize

def qSteps : List (Nat × Nat) :=
  dimSteps mapping.tileInLoop.Q (tile.Q * mapping.tileInLoop.Q) mapping.totalLoop.Q op.qLoopSize

def pSteps : List (Nat × Nat) :=
  dimSteps mapping.tileInLoop.P (tile.P * mapping.tileInLoop.P) mapping.totalLoop.P op.pLoopSize

/-- The iterations over a weight block: `Ms`, `Ss`, `Rs` and `Cs`, the first and the last with their
lengths. The place of an iteration in the list is its `tile_idx`. -/
def weightLoop : List ((Nat × Nat) × Nat × Nat × (Nat × Nat)) :=
  (op.mSteps tile mapping).flatMap fun m => (List.range mapping.tileInLoop.S).flatMap fun s =>
    (List.range mapping.tileInLoop.R).flatMap fun r =>
      (op.cSteps tile mapping).map fun c => (m, s, r, c)

/-- The tile lies in the loops of the whole layer. -/
def inRange : Bool :=
  decide (tile.batch * mapping.tileInLoop.N < mapping.totalLoop.N ∧
    tile.M * mapping.tileInLoop.M < mapping.totalLoop.M ∧
    tile.Q * mapping.tileInLoop.Q < mapping.totalLoop.Q ∧
    tile.P * mapping.tileInLoop.P < mapping.totalLoop.P ∧
    tile.C * mapping.tileInLoop.C < mapping.totalLoop.C ∧
    tile.S * mapping.tileInLoop.S < mapping.totalLoop.S ∧
    tile.R * mapping.tileInLoop.R < mapping.totalLoop.R)

/-! ## Instructions -/

/-- `weight_sp_addr` of iteration `idx`. -/
def weightSpAddr (idx s r : Nat) : AddrType :=
  let in' := mapping.tileInLoop
  op.config.alignAddress (SPAD_BASE +
    word (in'.N * op.inputSize 0 in'.Q * op.inputSize 1 in'.P * in'.C * op.config.precision) +
    word (op.loopSize * op.loopSize * (idx * (in'.S * in'.R) + s * in'.R + r)))

/-- `out_sp_addr`. -/
def outSpAddr (n q p m : Nat) : AddrType :=
  let in' := mapping.tileInLoop
  op.config.alignAddress
    (ACCUM_SPAD_BASE + op.makeActivationAddress n q p m [in'.N, in'.Q, in'.P, in'.M])

/-- MOVIN Activation data -/
def activationMovin : Instruction :=
  let in' := mapping.tileInLoop
  let addrs := (List.range in'.N).flatMap fun n =>
    (steps (op.inputSize 0 in'.Q) (op.strides.getD 0 0)).flatMap fun h =>
      (steps (op.inputSize 1 in'.P) (op.strides.getD 1 0)).flatMap fun w =>
        ((List.range in'.C).takeWhile fun c => tile.C * in'.C + c < mapping.totalLoop.C).filterMap
          fun c =>
            let row := op.inputOffset 0 (tile.Q * in'.Q) + h
            let col := op.inputOffset 1 (tile.P * in'.P) + w
            if row < 0 ∨ row ≥ op.inputShape.getD op.hdim 0 ∨
                col < 0 ∨ col ≥ op.inputShape.getD op.wdim 0 then none
            else
              some (op.getOperandAddr INPUT_OPERAND +
                op.makeActivationAddress (tile.batch * in'.N + n) row.toNat col.toNat
                  (tile.C * in'.C + c) op.inputShape)
  { opcode := .MOVIN
    destAddr := SPAD_BASE
    size := (addrSet addrs).length
    srcAddrs := addrSet addrs
    operandId := INPUT_OPERAND }

/-- MOVIN Weight data -/
def weightMovin (it : ((Nat × Nat) × Nat × Nat × (Nat × Nat)) × Nat) : Instruction :=
  let in' := mapping.tileInLoop
  let ((m, s, r, c), idx) := it
  let addrs := (List.range m.2).flatMap fun i => (List.range c.2).map fun j =>
    op.getOperandAddr (INPUT_OPERAND + 1) +
      op.makeWeightAddress (tile.S * in'.S + s) (tile.R * in'.R + r) (tile.M * in'.M + m.1 + i)
        (tile.C * in'.C + c.1 + j) op.weightShape
  { opcode := .MOVIN
    destAddr := op.weightSpAddr mapping idx s r
    size := (addrSet addrs).length
    srcAddrs := addrSet addrs
    operandId := INPUT_OPERAND + 1 }

/-- Compute -/
def computes (it : ((Nat × Nat) × Nat × Nat × (Nat × Nat)) × Nat) : List Instruction :=
  let ((m, s, r, c), idx) := it
  (List.range mapping.tileInLoop.N).flatMap fun n => (op.qSteps tile mapping).flatMap fun q =>
    (op.pSteps tile mapping).map fun p =>
      { opcode := if n = 0 ∧ q.1 = 0 ∧ p.1 = 0 then .GEMM_PRELOAD else .GEMM
        destAddr := op.outSpAddr mapping n q.1 p.1 m.1
        size := p.2 * q.2 * op.config.precision / op.config.dramReqSize
        computeSize := p.2 * q.2
        srcAddrs := [SPAD_BASE, op.weightSpAddr mapping idx s r]
        tileM := m.2
        tileK := c.2
        tileN := p.2 * q.2 }

/-- `m_loop` of the stores, which is not cut to the tile. -/
def storeSteps : List (Nat × Nat) :=
  ((steps mapping.tileInLoop.M op.loopSize).filter fun i =>
    i + tile.M * mapping.tileInLoop.M < mapping.totalLoop.M).map fun i =>
      (i, min (mapping.totalLoop.M - tile.M * mapping.tileInLoop.M - i) op.loopSize)

/-- MOVOUT or MOVOUT_POOL -/
def movout (n q p m qLoop pLoop mLoop : Nat) : Instruction :=
  let in' := mapping.tileInLoop
  let shape := if op.poolFused then op.poolOutShape else op.convOutShape
  let addrs := (List.range qLoop).flatMap fun i => (List.range pLoop).flatMap fun j =>
    (List.range mLoop).map fun k =>
      op.getOperandAddr OUTPUT_OPERAND +
        op.makeActivationAddress (tile.batch * in'.N + n) (tile.Q * in'.Q + q + i)
          (tile.P * in'.P + p + j) (tile.M * in'.M + m + k) shape
  { opcode := if op.poolFused then .MOVOUT_POOL else .MOVOUT
    destAddr := op.outSpAddr mapping n q p m
    size := (addrSet addrs).length
    srcAddrs := addrSet addrs
    operandId := OUTPUT_OPERAND }

/-- The stores of the last tile of an output block. With a fused pooling every iteration divides
`q_loop` and `p_loop` once more: the loop over `Q` sets the one, the loop over `P` the other. -/
def stores : List Instruction :=
  let out := mapping.tileOutLoop
  if tile.C + 1 = out.C ∧ tile.R + 1 = out.R ∧ tile.S + 1 = out.S then
    (List.range mapping.tileInLoop.N).flatMap fun n => (op.qSteps tile mapping).flatMap fun q =>
      (op.pSteps tile mapping).zipIdx.flatMap fun p =>
        (op.storeSteps tile mapping).zipIdx.map fun m =>
          let pooled := p.2 * (op.storeSteps tile mapping).length + m.2 + 1
          let qLoop := if op.poolFused then q.2 / op.poolKernelShape.getD 0 0 ^ pooled else q.2
          let pLoop :=
            if op.poolFused then p.1.2 / op.poolKernelShape.getD 1 0 ^ (m.2 + 1) else p.1.2
          op.movout tile mapping n q.1 p.1.1 m.1.1 qLoop pLoop m.1.2
  else []

/-- Half of the scratchpad in bytes. -/
def halfSpad : Nat := (op.config.coreConfig op.targetCore).spadSize * 1024 / 2

/-- `ConvWS::initialize_instructions`. -/
def initializeInstructions : Option (List Instruction) :=
  if inRange tile mapping then
    let act := op.activationMovin tile mapping
    let weights := (op.weightLoop tile mapping).zipIdx.map (op.weightMovin tile mapping)
    let sram := act.size + (weights.map (·.size)).sum
    if op.loopSize = 0 ∨ op.qLoopSize = 0 ∨ op.pLoopSize = 0 ∨ op.strides.getD 0 0 = 0 ∨
        op.strides.getD 1 0 = 0 then none
    else if sram * op.config.dramReqSize ≤ op.halfSpad then
      some (act :: weights ++
        (op.weightLoop tile mapping).zipIdx.flatMap (op.computes tile mapping) ++
        op.stores tile mapping)
    else none
  else some []

/-! ## Tiles -/

/-- The body of the loops of `initialize_tiles`. -/
def initializeTile (st : Int × List Tile) (loop : (Nat × Nat × Nat × Nat) × Nat × Nat × Nat) :
    Option (Int × List Tile) := do
  let ((n, p, q, m), s, r, c) := loop
  let coreId := if c = 0 ∧ r = 0 ∧ s = 0 then (st.1 + 1) % op.config.numCores else st.1
  let tile : Tile :=
    { status := .INITIALIZED
      layerId := op.id
      batch := n
      Q := q
      P := p
      M := m
      C := c
      S := s
      R := r
      accum := c ≠ 0 ∨ r ≠ 0 ∨ s ≠ 0
      coreId := coreId }
  let instructions ← op.initializeInstructions tile mapping
  if instructions = [] then some (coreId, st.2)
  else some (coreId, st.2 ++ [{ tile with instructions := instructions }])

/-- The output blocks in the order of the loops over `N`, `P`, `Q` and `M`. -/
def blockLoops : List (Nat × Nat × Nat × Nat) :=
  let out := mapping.tileOutLoop
  (List.range out.N).flatMap fun n => (List.range out.P).flatMap fun p =>
    (List.range out.Q).flatMap fun q => (List.range out.M).map fun m => (n, p, q, m)

/-- The tiles of an output block in the order of the loops over `S`, `R` and `C`. -/
def reductionLoop (block : Nat × Nat × Nat × Nat) :
    List ((Nat × Nat × Nat × Nat) × Nat × Nat × Nat) :=
  let out := mapping.tileOutLoop
  (List.range out.S).flatMap fun s => (List.range out.R).flatMap fun r =>
    (List.range out.C).map fun c => (block, s, r, c)

/-- The assertion on a fused pooling. -/
def poolFits : Bool :=
  let fits := fun len axis =>
    decide (op.poolKernelShape.getD axis 0 ≤ len ∧ len % op.poolKernelShape.getD axis 0 = 0)
  !op.poolFused || (fits mapping.tileInLoop.P 0 && fits mapping.tileInLoop.Q 1)

/-- `ConvWS::initialize_tiles` with `_group == 1`. -/
def initializeTiles : Option (List Tile) :=
  if mapping.tileInLoop.C ≤ 1 ∨ !op.poolFits mapping then none
  else do
    let st ← ((blockLoops mapping).flatMap (reductionLoop mapping)).foldlM
      (op.initializeTile mapping) (-1, [])
    if st.2 = [] then none else some st.2

end ConvWS

end OnnxSim
