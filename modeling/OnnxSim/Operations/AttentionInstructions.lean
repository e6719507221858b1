import OnnxSim.Operations.Attention

/-!
# The instructions of an attention tile

`Attention::initialize_instructions(tile, mapping, head_idx, num_heads)` for the fused tiles of
`initialize_tiles`, with the shapes that `initialize_tiles` sets.
-/

namespace OnnxSim

namespace Attention

variable (op : Attention) (mapping : Mapping) (tile : Tile) (headIdx numHeads : Nat)

def loopSize : Nat := (op.config.coreConfig op.targetCore).coreHeight

/-- A number of elements in bytes. -/
def bytes (elems : Nat) : AddrType := word (elems * op.config.precision)

/-- `q_len * _config.precision / _config.dram_req_size`, for any number of elements. -/
def accesses (elems : Nat) : Nat := elems * op.config.precision / op.config.dramReqSize

def queryShape : List Nat := [op.nh, op.qLen, op.dk]

/-- `_key_shape` and `_value_shape`. -/
def keyShape : List Nat := [op.nkvh, op.seq, op.dk]

def outputShape : List Nat := [op.seq, op.nh, op.dk]

/-- `qlen_offset`. -/
def qlenOffset : Nat := mapping.tileOutLoop.N / op.nkvh

/-- `q_ffset`. -/
def qOffset : Nat := tile.batch % op.qlenOffset mapping

/-- `q_len`. -/
def blockQLen : Nat := mapping.tileInLoop.N / numHeads

/-- `seq_len`. -/
def blockSeqLen : Nat := mapping.tileInLoop.M

/-- `kv_head_idx`. -/
def kvHeadIdx : Nat := headIdx / op.nkvh

/-! ## Addresses -/

def sramKeyBase : AddrType := SPAD_BASE + op.bytes (blockQLen mapping numHeads * op.dk * numHeads)

def sramValueBase : AddrType :=
  op.sramKeyBase mapping numHeads + op.bytes (op.dk * blockSeqLen mapping * ceilDiv numHeads op.nkvh)

def sramKOfs : AddrType :=
  op.sramKeyBase mapping numHeads + op.bytes (op.kvHeadIdx headIdx * (op.dk * blockSeqLen mapping))

def sramVOfs : AddrType :=
  op.sramValueBase mapping numHeads + op.bytes (op.kvHeadIdx headIdx * (op.dk * blockSeqLen mapping))

def sramQOfs (h : Nat) : AddrType := SPAD_BASE + op.bytes (h * (blockQLen mapping numHeads * op.dk))

def sramLOfs (h : Nat) : AddrType :=
  ACCUM_SPAD_BASE + op.bytes (h * (blockQLen mapping numHeads * blockSeqLen mapping))

def sramLogitsOffset (h : Nat) : AddrType :=
  op.sramLOfs mapping numHeads h +
    op.bytes (numHeads * (blockQLen mapping numHeads * blockSeqLen mapping))

/-! ## Loads -/

/-- The elements of the keys that are loaded, up to the end of the keys. -/
def keyElements : List (Nat × Nat) :=
  ((List.range (blockSeqLen mapping)).takeWhile fun s =>
      tile.M * blockSeqLen mapping + s < op.seq).flatMap fun s =>
    (List.range op.dk).map fun i => (s, i)

/-- `dram_kv_addrs`. -/
def kvAddrs : Option (List AddrType) := do
  let addrs ← (op.keyElements mapping tile).mapM fun p =>
    op.makeAddress [op.kvHeadIdx headIdx, p.1, p.2] op.keyShape
  some (addrSet addrs)

def keyMovin (addrs : List AddrType) : Instruction where
  opcode := .MOVIN
  destAddr := op.sramKOfs mapping headIdx numHeads
  size := addrs.length
  srcAddrs := addrs.map (op.getOperandAddr (INPUT_OPERAND + 1) + ·)
  operandId := INPUT_OPERAND + 1

def valueMovin (addrs : List AddrType) : Instruction where
  opcode := .MOVIN
  destAddr := op.sramVOfs mapping headIdx numHeads
  size := addrs.length
  srcAddrs := addrs.map (op.getOperandAddr (INPUT_OPERAND + 2) + ·)
  operandId := INPUT_OPERAND + 2

/-- The elements of the block of queries that starts at `start`. -/
def queryElements (start : Nat) : List (Nat × Nat) :=
  ((List.range (blockQLen mapping numHeads)).filter fun s => start + s < op.qLen).flatMap fun s =>
    (List.range op.dk).map fun i => (start + s, i)

def queryMovin (h : Nat) : Option Instruction := do
  let addrs ← (op.queryElements mapping numHeads
      (op.qOffset mapping tile * blockQLen mapping numHeads)).mapM fun p =>
    op.makeAddress [headIdx + h, p.1, p.2] op.queryShape
  let queries := addrSet (addrs.map (op.getOperandAddr INPUT_OPERAND + ·))
  some {
    opcode := .MOVIN
    destAddr := op.sramQOfs mapping numHeads h
    size := queries.length
    srcAddrs := queries
    operandId := INPUT_OPERAND }

/-! ## Compute -/

/-- GEMM (q*k -> l) -/
def scoreGemms : List Instruction :=
  (steps (blockSeqLen mapping) op.loopSize).flatMap fun s =>
    (steps op.dk op.loopSize).flatMap fun k => (List.range numHeads).map fun h =>
      { opcode := if h = 0 then .GEMM_PRELOAD else .GEMM
        destAddr := op.sramLOfs mapping numHeads h
        size := op.accesses (blockQLen mapping numHeads)
        computeSize := blockQLen mapping numHeads
        srcAddrs := [op.sramQOfs mapping numHeads h, op.sramKOfs mapping headIdx numHeads]
        tileM := min (blockSeqLen mapping - s) op.loopSize
        tileK := min (op.dk - k) op.loopSize
        tileN := blockQLen mapping numHeads }

/-- Softmax (l -> l) -/
def softmax (h : Nat) : List Instruction :=
  let qLen := blockQLen mapping numHeads
  let seqLen := blockSeqLen mapping
  let l := op.sramLOfs mapping numHeads h
  let logits := op.sramLogitsOffset mapping numHeads h
  let precision := op.config.precision
  let fullPrecision := op.config.fullPrecision
  let inst := fun opcode destAddr size computeSize srcAddrs : _ =>
    ({ opcode := opcode, destAddr := destAddr, size := size, computeSize := computeSize,
       srcAddrs := srcAddrs, tileM := qLen, srcFromAccum := true } : Instruction)
  [inst .ADDTREE logits (op.accesses (qLen * seqLen)) (seqLen * precision + 1) [l],
    inst .ADD l (op.accesses (qLen * seqLen)) (qLen * (seqLen + 1) * precision) [l, logits],
    inst .EXP l (op.accesses (qLen * seqLen)) (qLen * (seqLen + 1) * fullPrecision) [l],
    inst .ADDTREE logits (op.accesses (qLen * seqLen)) (seqLen * fullPrecision) [l],
    inst .MAC logits (op.accesses (qLen * seqLen)) (qLen * seqLen * fullPrecision) [logits],
    inst .DIV l (op.accesses qLen) (qLen * fullPrecision) [logits],
    inst .MUL l (op.accesses (qLen * seqLen)) (qLen * seqLen * fullPrecision) [l, logits]]

/-- GEMM (l*v -> acc) -/
def valueGemms : List Instruction :=
  (steps op.dk op.loopSize).flatMap fun k =>
    (steps (blockSeqLen mapping) op.loopSize).flatMap fun s => (List.range numHeads).map fun h =>
      { opcode := if h = 0 then .GEMM_PRELOAD else .GEMM
        destAddr := op.sramLOfs mapping numHeads h
        size := op.accesses (blockQLen mapping numHeads)
        computeSize := blockQLen mapping numHeads
        srcAddrs := [op.sramLOfs mapping numHeads h, op.sramVOfs mapping headIdx numHeads]
        tileM := min (op.dk - k) op.loopSize
        tileK := min (blockSeqLen mapping - s) op.loopSize
        tileN := blockQLen mapping numHeads
        srcFromAccum := true }

/-! ## Stores -/

/-- What the last tile of a block of queries does for head `h`: its query index starts from the
number of the tile in its sequence. -/
def store (h : Nat) : Option (List Instruction) := do
  let qLen := blockQLen mapping numHeads
  let l := op.sramLOfs mapping numHeads h
  let logits := op.sramLogitsOffset mapping numHeads h
  let addrs ← (op.queryElements mapping numHeads (tile.M * qLen)).mapM fun p =>
    op.makeAddress [p.1, headIdx + h, p.2] op.outputShape
  let outputs := addrSet (addrs.map (op.getOperandAddr OUTPUT_OPERAND + ·))
  some [
    { opcode := .DIV
      destAddr := l
      size := op.accesses op.qLen
      computeSize := op.qLen * op.config.fullPrecision
      srcAddrs := [logits]
      tileM := qLen
      srcFromAccum := true },
    { opcode := .MUL
      destAddr := l
      size := op.accesses (op.qLen * op.dk)
      computeSize := op.qLen * op.dk * op.config.fullPrecision
      srcAddrs := [l, logits]
      tileM := qLen
      srcFromAccum := true },
    { opcode := .MOVOUT
      destAddr := l
      size := outputs.length
      srcAddrs := outputs
      operandId := OUTPUT_OPERAND }]

def stores : Option (List Instruction) := do
  if tile.M + 1 = mapping.tileOutLoop.M then
    let stores ← (List.range numHeads).mapM (op.store mapping tile headIdx numHeads)
    some stores.flatten
  else some []

/-- `Attention::initialize_instructions`. -/
def initializeInstructions : Option (List Instruction) := do
  if op.qlenOffset mapping = 0 ∨ numHeads = 0 ∨ op.nkvh < numHeads ∨ op.loopSize = 0 then none
  else
    let kv ← op.kvAddrs mapping tile headIdx
    let queries ← (List.range numHeads).mapM (op.queryMovin mapping tile headIdx numHeads)
    let stores ← op.stores mapping tile headIdx numHeads
    some (op.keyMovin mapping headIdx numHeads kv :: queries ++
      [op.valueMovin mapping headIdx numHeads kv] ++
      op.scoreGemms mapping headIdx numHeads ++
      (List.range numHeads).flatMap (op.softmax mapping numHeads) ++
      op.valueGemms mapping headIdx numHeads ++ stores)

end Attention

end OnnxSim
