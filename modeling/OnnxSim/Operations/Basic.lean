import Mathlib.Data.List.Sort
import OnnxSim.Common

/-!
# What the tilings of the operations share

The loop counts of a mapping, the addresses of operands, and the loops `for (i = 0; i < bound;
i += step)` of `initialize_instructions`. A mapping is what `MappingTable::at` returned. Sizes and
offsets are natural numbers, so the 32-bit sums and products of a tiling are taken not to wrap, except
in addresses. A failed assertion, an exception and a loop that does not end are `none`.
-/

namespace OnnxSim

/-- The value of a `uint32_t`. -/
def wrap (n : Nat) : Nat := n % 2 ^ 32

theorem wrap_of_lt {n : Nat} (h : n < 2 ^ 32) : wrap n = n := Nat.mod_eq_of_lt h

/-- A difference of two `uint32_t`. -/
def wrapSub (a b : Nat) : Nat := wrap (a + 2 ^ 32 - b)

/-- `ceil_div`. -/
def ceilDiv (src div : Nat) : Nat := if div = 0 then 0 else wrap (src + div - 1) / div

@[simp] theorem ceilDiv_zero (src : Nat) : ceilDiv src 0 = 0 := rfl

theorem ceilDiv_eq_zero_iff {src div : Nat} (h : src + div ≤ 2 ^ 32) :
    ceilDiv src div = 0 ↔ src = 0 ∨ div = 0 := by
  unfold ceilDiv
  split
  · simp [*]
  · rename_i hdiv
    rw [wrap_of_lt (by omega), Nat.div_eq_zero_iff]
    omega

theorem ceilDiv_le {src div : Nat} (h : src + div ≤ 2 ^ 32) : ceilDiv src div ≤ src := by
  unfold ceilDiv
  split
  · omega
  · rename_i hdiv
    rw [wrap_of_lt (by omega), Nat.div_le_iff_le_mul_add_pred (by omega)]
    have := Nat.le_mul_of_pos_left src (Nat.pos_of_ne_zero hdiv)
    omega

/-- `Mapping::LoopCounts`. -/
structure LoopCounts where
  N : Nat := 1
  C : Nat := 1
  M : Nat := 1
  S : Nat := 1
  R : Nat := 1
  Q : Nat := 1
  P : Nat := 1
  deriving Repr, DecidableEq

structure Mapping where
  totalLoop : LoopCounts
  tileInLoop : LoopCounts
  tileOutLoop : LoopCounts
  deriving Repr, DecidableEq

/-- What every tiling reads of its operation; `inputs` and `outputs` hold the addresses of the
tensors. -/
structure Node where
  config : SimulationConfig
  id : Nat
  inputs : List AddrType
  outputs : List AddrType
  targetCore : Nat := 0

def INPUT_OPERAND : Nat := 100

def OUTPUT_OPERAND : Nat := 200

/-- `std::set<addr_type>`, in the order of its iterator. -/
def addrSet (addrs : List AddrType) : List AddrType := addrs.dedup.insertionSort (· ≤ ·)

@[simp] theorem mem_addrSet {addrs : List AddrType} {a : AddrType} :
    a ∈ addrSet addrs ↔ a ∈ addrs := by
  simp [addrSet, List.mem_insertionSort]

/-- A `uint32_t` as an address. -/
def word (n : Nat) : AddrType := BitVec.ofNat 64 (n % 2 ^ 32)

/-- An `int`, given by its 32 bits, as an address. -/
def signedWord (n : Nat) : AddrType := (BitVec.ofNat 32 n).signExtend 64

theorem signedWord_of_lt {n : Nat} (h : n < 2 ^ 31) : signedWord n = BitVec.ofNat 64 n := by
  have hmsb : (BitVec.ofNat 32 n).msb = false := by
    rw [BitVec.msb_eq_false_iff_two_mul_lt, BitVec.toNat_ofNat]
    omega
  apply BitVec.eq_of_toNat_eq
  unfold signedWord
  rw [BitVec.signExtend_eq_setWidth_of_msb_false hmsb, BitVec.toNat_setWidth, BitVec.toNat_ofNat,
    BitVec.toNat_ofNat]
  omega

/-- The values of `i` in `for (i = 0; i < bound; i += step)`, for a positive step. -/
def steps (bound step : Nat) : List Nat := (List.range ((bound + step - 1) / step)).map (· * step)

@[simp] theorem steps_zero (step : Nat) : steps 0 step = [] := by
  unfold steps
  rcases Nat.eq_zero_or_pos step with rfl | hstep
  · rfl
  · rw [Nat.div_eq_of_lt (by omega)]
    rfl

theorem mem_steps {bound step x : Nat} (hstep : 0 < step) :
    x ∈ steps bound step ↔ x < bound ∧ step ∣ x := by
  unfold steps
  rw [List.mem_map]
  constructor
  · rintro ⟨k, hk, rfl⟩
    refine ⟨?_, Nat.dvd_mul_left step k⟩
    have hlt := (Nat.lt_div_iff_mul_lt hstep).mp (List.mem_range.mp hk)
    omega
  · rintro ⟨hx, k, rfl⟩
    refine ⟨k, List.mem_range.mpr ((Nat.lt_div_iff_mul_lt hstep).mpr ?_), Nat.mul_comm k step⟩
    rw [Nat.mul_comm k step]
    omega

/-- `offset + size > total ? total - offset : size`, or 0 where the source has a negative number. -/
def within (offset size total : Nat) : Nat :=
  if offset + size > total then total - offset else size

/-- `SimulationConfig::align_address`. -/
def SimulationConfig.alignAddress (config : SimulationConfig) (addr : AddrType) : AddrType :=
  addr - addr % BitVec.ofNat 64 config.dramReqSize

namespace Node

variable (op : Node)

/-- `Operation::get_operand_addr`. -/
def getOperandAddr (operandId : Nat) : AddrType :=
  if operandId = 0 then GARBEGE_ADDR
  else if INPUT_OPERAND ≤ operandId ∧ operandId < OUTPUT_OPERAND then
    op.inputs.getD (operandId - INPUT_OPERAND) 0
  else if OUTPUT_OPERAND ≤ operandId then op.outputs.getD (operandId - OUTPUT_OPERAND) 0
  else GARBEGE_ADDR

/-- `_config.align_address(address * _config.precision)` for the element at `index`. -/
def elementAddress (index : Nat) : AddrType :=
  op.config.alignAddress (word index * BitVec.ofNat 64 op.config.precision)

/-- `Operation::make_address`. -/
def makeAddress (index dims : List Nat) : Option AddrType :=
  if index.length ≠ dims.length ∨ (index.zip dims).any (fun p => p.2 ≤ p.1) then none
  else
    match index, dims with
    | [i0, i1, i2, i3], [_, d1, d2, d3] =>
      some (op.elementAddress (i0 * (d1 * d2 * d3) + i1 * (d2 * d3) + i2 * d3 + i3))
    | [i0, i1, i2], [_, d1, d2] => some (op.elementAddress (i0 * (d1 * d2) + i1 * d2 + i2))
    | [i0, i1], [_, d1] => some (op.elementAddress (i0 * d1 + i1))
    | _, _ => none

end Node

end OnnxSim
