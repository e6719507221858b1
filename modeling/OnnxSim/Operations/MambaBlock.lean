import OnnxSim.Operations.Basic

/-!
# The instructions of a Mamba block

`MambaBlock::initialize_instructions`: one tile that does a whole step of the block. The byte sizes are
32-bit words, and the regions of the scratchpad follow one another by these sizes.
-/

namespace OnnxSim

structure MambaBlock extends Node where
  batch : Nat := 1
  dModel : Nat
  dInner : Nat
  dState : Nat
  dConv : Nat
  dtRank : Nat

namespace MambaBlock

variable (op : MambaBlock)

def bytes (elems : Nat) : Nat := wrap (elems * op.config.precision)

/-! ## Byte sizes -/

def bm : Nat := op.bytes op.dModel

def bi : Nat := op.bytes op.dInner

def bs : Nat := op.bytes op.dState

def bdt : Nat := op.bytes op.dtRank

def bcs : Nat := op.bytes (op.dInner * op.dConv)

def bss : Nat := op.bytes (op.dInner * op.dState)

def bwInProj : Nat := op.bytes (2 * op.dInner * op.dModel)

def bwconv : Nat := op.bytes (op.dInner * op.dConv)

def bwConv1d : Nat := wrap (op.bwconv + op.bi)

def bwXproj : Nat := op.bytes ((op.dtRank + 2 * op.dState) * op.dInner)

def bwdt : Nat := op.bytes (op.dInner * op.dtRank)

def bwDtProj : Nat := wrap (op.bwdt + op.bi)

def bwSsm : Nat := wrap (op.bss + op.bi)

def bwOutProj : Nat := op.bytes (op.dModel * op.dInner)

/-- A sum of an `addr_type` and a `uint32_t`. -/
def plus (addr : AddrType) (size : Nat) : AddrType := addr + BitVec.ofNat 64 size

/-! ## SRAM addresses -/

def sramX : AddrType := SPAD_BASE

def sramConvSt : AddrType := plus sramX op.bm

def sramSsmSt : AddrType := plus op.sramConvSt op.bcs

def sramWInProj : AddrType := plus op.sramSsmSt op.bss

def sramWConv1d : AddrType := plus op.sramWInProj op.bwInProj

def sramWXproj : AddrType := plus op.sramWConv1d op.bwConv1d

def sramWDtProj : AddrType := plus op.sramWXproj op.bwXproj

def sramWSsm : AddrType := plus op.sramWDtProj op.bwDtProj

def sramWOutProj : AddrType := plus op.sramWSsm op.bwSsm

def sramXin : AddrType := plus op.sramWOutProj op.bwOutProj

def sramZ : AddrType := plus op.sramXin op.bi

def sramXact : AddrType := plus op.sramZ op.bi

def sramDtRaw : AddrType := plus op.sramXact op.bi

def sramB : AddrType := plus op.sramDtRaw op.bdt

def sramC : AddrType := plus op.sramB op.bs

def sramDt : AddrType := plus op.sramC op.bs

def sramY : AddrType := plus op.sramDt op.bi

def sramOut : AddrType := ACCUM_SPAD_BASE

/-! ## Helpers -/

/-- `make_addrs`: the loop counts in `int`, so from 2 ^ 31 bytes on it makes no turn. -/
def makeAddrs (base : AddrType) (nbytes : Nat) : List AddrType :=
  let offsets := if nbytes < 2 ^ 31 then steps nbytes op.config.dramReqSize else []
  let s := addrSet (offsets.map (plus base))
  if s = [] then [base] else s

def chunks (nb : Nat) : Nat := max 1 (nb / op.config.dramReqSize)

def movin (dest : AddrType) (operand nbytes : Nat) : Instruction :=
  let addrs := op.makeAddrs (op.getOperandAddr (INPUT_OPERAND + operand)) nbytes
  { opcode := .MOVIN
    destAddr := dest
    size := addrs.length
    srcAddrs := addrs
    operandId := INPUT_OPERAND + operand }

def movout (dest : AddrType) (operand nbytes : Nat) : Instruction :=
  let addrs := op.makeAddrs (op.getOperandAddr (OUTPUT_OPERAND + operand)) nbytes
  { opcode := .MOVOUT
    destAddr := dest
    size := addrs.length
    srcAddrs := addrs
    operandId := OUTPUT_OPERAND + operand }

def gemm (dest : AddrType) (nb : Nat) (srcAddrs : List AddrType) (tileM tileK : Nat) :
    Instruction where
  opcode := .GEMM
  destAddr := dest
  size := op.chunks nb
  computeSize := nb
  srcAddrs := srcAddrs
  tileM := tileM
  tileK := tileK
  tileN := op.batch

def vector (opcode : Opcode) (dest : AddrType) (nb : Nat) (srcAddrs : List AddrType) :
    Instruction where
  opcode := opcode
  destAddr := dest
  size := op.chunks nb
  computeSize := nb
  srcAddrs := srcAddrs

/-! ## The stages -/

/-- 1. in_proj -/
def inProj : List Instruction :=
  [op.movin sramX 0 op.bm,
    op.movin op.sramWInProj 3 op.bwInProj,
    op.gemm op.sramXin (wrap (2 * op.bi)) [sramX, op.sramWInProj] (wrap (2 * op.dInner)) op.dModel]

/-- 2. conv1d -/
def conv1d : List Instruction :=
  [op.movin op.sramConvSt 1 op.bcs,
    op.movin op.sramWConv1d 4 op.bwconv,
    op.movin (plus op.sramWConv1d op.bwconv) 5 op.bi,
    op.vector .COMP op.sramConvSt op.bcs [op.sramConvSt, op.sramXin],
    op.gemm op.sramXact op.bi [op.sramConvSt, op.sramWConv1d] op.dInner op.dConv,
    op.vector .COMP op.sramXact op.bi [op.sramXact],
    op.movout op.sramConvSt 1 op.bcs]

/-- 3. x_proj -/
def xProj : List Instruction :=
  let xprojOut := wrap (op.dtRank + 2 * op.dState)
  [op.movin op.sramWXproj 6 op.bwXproj,
    op.gemm op.sramDtRaw (op.bytes xprojOut) [op.sramXact, op.sramWXproj] xprojOut op.dInner]

/-- 4. dt_proj + softplus -/
def dtProj : List Instruction :=
  [op.movin op.sramWDtProj 7 op.bwdt,
    op.movin (plus op.sramWDtProj op.bwdt) 8 op.bi,
    op.gemm op.sramDt op.bi [op.sramDtRaw, op.sramWDtProj] op.dInner op.dtRank,
    op.vector .ADD op.sramDt op.bi [op.sramDt, plus op.sramWDtProj op.bwdt],
    op.vector .EXP op.sramDt op.bi [op.sramDt],
    op.vector .ADD op.sramDt op.bi [op.sramDt],
    op.vector .EXP op.sramDt op.bi [op.sramDt],
    op.vector .ADD op.sramDt op.bi [op.sramDt]]

/-- 5. ssm_update -/
def ssmUpdate : List Instruction :=
  [op.movin op.sramSsmSt 2 op.bss,
    op.movin op.sramWSsm 9 op.bss,
    op.movin (plus op.sramWSsm op.bss) 10 op.bi,
    op.vector .EXP op.sramSsmSt op.bss [op.sramDt, op.sramWSsm],
    op.vector .MUL op.sramY op.bss [op.sramDt, op.sramB],
    op.vector .MUL op.sramSsmSt op.bss [op.sramSsmSt, op.sramXact],
    op.vector .ADD op.sramSsmSt op.bss [op.sramSsmSt, op.sramY],
    op.gemm op.sramY op.bi [op.sramSsmSt, op.sramC] op.dInner op.dState,
    op.vector .MUL op.sramY op.bi [op.sramXact, plus op.sramWSsm op.bss],
    op.vector .ADD op.sramY op.bi [op.sramY, op.sramY],
    op.vector .COMP op.sramZ op.bi [op.sramZ],
    op.vector .MUL op.sramY op.bi [op.sramY, op.sramZ],
    op.movout op.sramSsmSt 2 op.bss]

/-- 6. out_proj -/
def outProj : List Instruction :=
  [op.movin op.sramWOutProj 11 op.bwOutProj,
    op.gemm sramOut op.bm [op.sramY, op.sramWOutProj] op.dModel op.dInner,
    op.movout sramOut 0 op.bm]

/-- `MambaBlock::initialize_instructions`. With accesses of no bytes, or of more than an `int` can
count, `make_addrs` does not end. -/
def initializeInstructions : Option (List Instruction) :=
  if op.config.dramReqSize = 0 ∨ 2 ^ 31 ≤ op.config.dramReqSize then none
  else
    some (op.inProj ++ op.conv1d ++ op.xProj ++ op.dtProj ++ op.ssmUpdate ++ op.outProj)

end MambaBlock

end OnnxSim
