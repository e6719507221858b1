import Mathlib.Data.BitVec

/-!
# Shared data types

The records of `Common.h`: memory accesses, instructions and tiles. Addresses are 64-bit words.
Counters, sizes and identifiers are natural numbers; where the 32-bit arithmetic of the source can
wrap, the operation is written with `% 2 ^ 32`.
-/

namespace OnnxSim

/-- `typedef uint64_t addr_type`. -/
abbrev AddrType := BitVec 64

def SPAD_BASE : AddrType := 0x10000000#64

def ACCUM_SPAD_BASE : AddrType := 0x20000000#64

def GARBEGE_ADDR : AddrType := 0xFFFFFFFFFFFFFFF#64

/-- What a `MemoryAccess*` points to: an object a core made, an element of an L2 bank's block pool
or writeback pool, or the heap object a bank falls back to when a pool is exhausted. -/
inductive MemoryPtr
  | heap (index : Nat)
  | pool (index : Nat)
  | wbPool (index : Nat)
  | fallback (index : Nat)
  deriving Repr, DecidableEq

structure MemoryAccess where
  ptr : MemoryPtr
  id : Nat
  dramAddress : AddrType
  spadAddress : AddrType := 0
  size : Nat
  objectSize : Nat
  write : Bool
  request : Bool
  coreId : BitVec 32
  startCycle : Nat := 0
  bufferId : Nat
  deriving Repr, DecidableEq

/-- `response->request = false`. -/
def MemoryAccess.answered (m : MemoryAccess) : MemoryAccess := { m with request := false }

@[simp] theorem MemoryAccess.answered_ptr (m : MemoryAccess) : m.answered.ptr = m.ptr := rfl

@[simp] theorem MemoryAccess.answered_id (m : MemoryAccess) : m.answered.id = m.id := rfl

inductive Opcode
  | MOVIN
  | MOVOUT
  | MOVOUT_POOL
  | GEMM_PRELOAD
  | GEMM
  | GEMM_WRITE
  | COMP
  | IM2COL
  | SOFTMAX
  | LAYERNORM
  | ADD
  | MUL
  | MAC
  | DIV
  | ADDTREE
  | EXP
  | GELU
  | SWISH
  | BAR
  deriving Repr, DecidableEq

/-- A `Tile*`: the address of a tile on the heap. -/
abbrev TilePtr := Nat

/-- An instruction of a tile. `size` counts chunks of `dram_req_size` bytes. The instruction's
strings are left out: no modelled function reads them. -/
structure Instruction where
  opcode : Opcode
  startCycle : Nat := 0
  finishCycle : Nat := 0
  destAddr : AddrType := 0
  size : Nat := 0
  computeSize : Nat := 0
  srcAddrs : List AddrType := []
  spadId : Nat := 0
  accumSpadId : Nat := 0
  operandId : Nat := 0
  baseAddr : AddrType := 0
  tileM : Nat := 0
  tileK : Nat := 0
  tileN : Nat := 0
  srcFromAccum : Bool := false
  zeroInit : Bool := false
  lastInst : Bool := false
  myTile : Option TilePtr := none
  /-- The tile whose list held the instruction. No function reads this field. -/
  owner : TilePtr := 0
  deriving Repr, DecidableEq

inductive TileStatus
  | INITIALIZED
  | RUNNING
  | FINISH
  | BAR
  | EMPTY
  deriving Repr, DecidableEq

structure TileStat where
  startCycle : Nat := 0
  cycles : Nat := 0
  computeCycles : Nat := 0
  memoryStall : Nat := 0
  deriving Repr, DecidableEq

/-- A tile; `ptr` is its address on the heap. -/
structure Tile where
  ptr : TilePtr := 0
  status : TileStatus := .EMPTY
  layerId : Nat := 0
  fusedOpId : Nat := 0
  batch : Nat := 0
  Q : Nat := 0
  P : Nat := 0
  M : Nat := 0
  C : Nat := 0
  S : Nat := 0
  R : Nat := 0
  stat : TileStat := {}
  instructions : List Instruction := []
  accum : Bool := false
  skip : Bool := false
  spadId : Nat := 0
  accumSpadId : Nat := 0
  coreId : Int := -1
  instFinished : Bool := false
  deriving Repr, DecidableEq

inductive CoreType
  | SYSTOLIC_OS
  | SYSTOLIC_WS
  deriving Repr, DecidableEq

structure CoreConfig where
  coreType : CoreType := .SYSTOLIC_WS
  coreWidth : Nat := 0
  coreHeight : Nat := 0
  vectorProcessBit : Nat := 0
  addLatency : Nat := 1
  mulLatency : Nat := 1
  macLatency : Nat := 1
  divLatency : Nat := 1
  expLatency : Nat := 1
  geluLatency : Nat := 1
  addTreeLatency : Nat := 1
  scalarSqrtLatency : Nat := 1
  scalarMulLatency : Nat := 1
  spadSize : Nat := 0
  accumSpadSize : Nat := 0

/-- The order of the dimensions of an activation tensor. -/
inductive Layout
  | NCHW
  | NHWC
  deriving Repr, DecidableEq

/-- The parameters of a simulation that the modelled functions read. -/
structure SimulationConfig where
  numCores : Nat
  coreConfig : Nat → CoreConfig := fun _ => {}
  dramChannels : Nat
  dramReqSize : Nat
  icntInjectionPortsPerCore : Nat := 1
  useL2 : Bool := false
  precision : Nat := 4
  fullPrecision : Nat := 4
  layout : Layout := .NHWC
  /-- The partition that the configuration file names for each core; all in 0 when it names none. -/
  partitionOf : Nat → Nat := fun _ => 0

/-- `partiton_map`: the cores of each partition, in increasing order. -/
def SimulationConfig.partitionMap (config : SimulationConfig) (partitionId : Nat) : List Nat :=
  (List.range config.numCores).filter fun core => config.partitionOf core == partitionId

end OnnxSim
