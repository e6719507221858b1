import OnnxSim.Core
import OnnxSim.Lib.ReductionTree

/-!
# The adder tree

`calculate_add_tree_iterations` counts the units of a reduction tree whose units take as many elements as
the vector unit has bytes, a level for each call. It returns that count where the tree ends: for a vector
unit of two bytes or more, and for a vector that one unit takes (`add_tree_returns_iff`). A vector unit of
one byte leaves every level as it is, and no vector instruction on more than one element gets a latency
(`getVectorComputeCycles_isSome_iff`).
-/

namespace OnnxSim

namespace Core

open ReductionTree

variable {config : SimulationConfig} {c : Core} {unit fuel size count depth : Nat}

theorem ceilDivUnit_eq (hunit : 0 < unit) (size : Nat) : ceilDivUnit unit size = size ⌈/⌉ unit := by
  have hdiv := Nat.div_add_mod size unit
  have hlt := Nat.mod_lt size hunit
  rw [Nat.ceilDiv_eq_add_pred_div]
  unfold ceilDivUnit
  symm
  split
  · apply Nat.div_eq_of_lt_le
    · rw [Nat.succ_mul, Nat.mul_comm]
      omega
    · rw [Nat.succ_mul, Nat.succ_mul, Nat.mul_comm]
      omega
  · apply Nat.div_eq_of_lt_le
    · rw [Nat.mul_comm]
      omega
    · rw [Nat.succ_mul, Nat.mul_comm]
      omega

/-- The recursion goes down the levels of the tree and returns its units. -/
theorem calculateAddTreeIterations_eq_some (hunit : 0 < unit) :
    calculateAddTreeIterations unit fuel size = some count ↔
      ∃ depth < fuel, Depth unit size depth ∧ count = units unit size depth := by
  induction fuel generalizing size count with
  | zero => simp [calculateAddTreeIterations]
  | succ fuel ih =>
    unfold calculateAddTreeIterations
    rw [if_neg hunit.ne', ceilDivUnit_eq hunit]
    split
    · next hlast =>
      constructor
      · intro h
        exact ⟨0, fuel.succ_pos, depth_zero_iff.mpr hlast, (Option.some.inj h).symm⟩
      · rintro ⟨depth, -, hdepth, rfl⟩
        obtain rfl := hdepth.unique (depth_zero_iff.mpr hlast)
        rfl
    · next hwide =>
      constructor
      · intro h
        obtain ⟨rest, hrest, h⟩ := Option.bind_eq_some_iff.mp h
        obtain ⟨depth, hlt, hdepth, rfl⟩ := ih.mp hrest
        refine ⟨depth + 1, Nat.succ_lt_succ hlt, depth_succ_iff.mpr ⟨by omega, hdepth⟩, ?_⟩
        rw [units_succ]
        exact (Option.some.inj h).symm
      · rintro ⟨depth, hlt, hdepth, rfl⟩
        cases depth with
        | zero => exact absurd hdepth.last hwide
        | succ depth =>
          have hrest := ih.mpr ⟨depth, Nat.lt_of_succ_lt_succ hlt, (depth_succ_iff.mp hdepth).2, rfl⟩
          rw [hrest, units_succ]
          rfl

/-- If the recursion ends, a call for each element and one more are enough. -/
theorem calculateAddTreeIterations_enough (hunit : 0 < unit) :
    calculateAddTreeIterations unit (size + 1) size = some count ↔
      ∃ fuel, calculateAddTreeIterations unit fuel size = some count := by
  refine ⟨fun h => ⟨_, h⟩, fun ⟨fuel, h⟩ => ?_⟩
  obtain ⟨depth, -, hdepth, hcount⟩ := (calculateAddTreeIterations_eq_some hunit).mp h
  refine (calculateAddTreeIterations_eq_some hunit).mpr ⟨depth, ?_, hdepth, hcount⟩
  rcases (exists_depth_iff hunit).mp ⟨depth, hdepth⟩ with htwo | hone
  · obtain ⟨d, hle, hd⟩ := exists_depth htwo size
    obtain rfl := hdepth.unique hd
    omega
  · obtain rfl := hdepth.unique (depth_zero_iff.mpr hone)
    omega

/-- The count is below `2 ^ 34` for a vector of a 32-bit size, far from the end of a `cycle_type`. -/
theorem calculateAddTreeIterations_lt (hunit : 0 < unit) (hsize : size < 2 ^ 32)
    (h : calculateAddTreeIterations unit fuel size = some count) : count < 2 ^ 34 := by
  obtain ⟨depth, -, hdepth, rfl⟩ := (calculateAddTreeIterations_eq_some hunit).mp h
  rcases (exists_depth_iff hunit).mp ⟨depth, hdepth⟩ with htwo | hone
  · have hle := hdepth.units_le htwo
    omega
  · obtain rfl := hdepth.unique (depth_zero_iff.mpr hone)
    change 1 < 2 ^ 34
    decide

theorem two_le_calculationUnit_iff :
    2 ≤ calculationUnit config c ↔ 16 ≤ (config.coreConfig c.id).vectorProcessBit := by
  unfold calculationUnit
  rw [Nat.shiftRight_eq_div_pow]
  omega

theorem calculationUnit_pos (hbits : 8 ≤ (config.coreConfig c.id).vectorProcessBit) :
    0 < calculationUnit config c := by
  unfold calculationUnit
  rw [Nat.shiftRight_eq_div_pow]
  omega

/-- The tree over the vector ends. -/
theorem exists_depth_calculationUnit_iff (hbits : 8 ≤ (config.coreConfig c.id).vectorProcessBit) :
    (∃ depth, Depth (calculationUnit config c) size depth) ↔
      16 ≤ (config.coreConfig c.id).vectorProcessBit ∨ size ≤ 1 := by
  have hpos := calculationUnit_pos hbits
  rw [exists_depth_iff hpos, ← two_le_calculationUnit_iff]
  omega

/-- `calculate_add_tree_iterations` returns the units of the reduction tree exactly if the vector unit has
two bytes or more or the vector at most one element. -/
theorem add_tree_returns_iff (hbits : 8 ≤ (config.coreConfig c.id).vectorProcessBit) (size : Nat) :
    (∃ fuel depth, Depth (calculationUnit config c) size depth ∧
      calculateAddTreeIterations (calculationUnit config c) fuel size =
        some (units (calculationUnit config c) size depth)) ↔
      16 ≤ (config.coreConfig c.id).vectorProcessBit ∨ size ≤ 1 := by
  rw [← exists_depth_calculationUnit_iff hbits]
  constructor
  · rintro ⟨fuel, depth, hdepth, -⟩
    exact ⟨depth, hdepth⟩
  · rintro ⟨depth, hdepth⟩
    exact ⟨depth + 1, depth, hdepth, (calculateAddTreeIterations_eq_some (calculationUnit_pos hbits)).mpr
      ⟨depth, depth.lt_succ_self, hdepth, rfl⟩⟩

/-- A core with a vector unit of `bits` bits. -/
def vectorConfig (bits : Nat) : SimulationConfig where
  numCores := 1
  coreConfig := fun _ => { vectorProcessBit := bits }
  dramChannels := 1
  dramReqSize := 32

/-- The only core of such a device, before its first cycle. -/
def vectorCore (bits : Nat) : Core := init (vectorConfig bits) 0 0 0

/-- A vector unit of 2048 bits. -/
theorem add_tree_returns_iff_wide :
    (∃ fuel depth, Depth (calculationUnit (vectorConfig 2048) (vectorCore 2048)) 1000 depth ∧
      calculateAddTreeIterations (calculationUnit (vectorConfig 2048) (vectorCore 2048)) fuel 1000 =
        some (units (calculationUnit (vectorConfig 2048) (vectorCore 2048)) 1000 depth)) ↔
      16 ≤ 2048 ∨ 1000 ≤ 1 :=
  add_tree_returns_iff (by decide) 1000

/-- On a vector unit of one byte the recursion over two elements never ends. -/
theorem one_byte_never_returns :
    8 ≤ ((vectorConfig 8).coreConfig 0).vectorProcessBit ∧
      ∀ fuel, calculateAddTreeIterations (calculationUnit (vectorConfig 8) (vectorCore 8)) fuel 2 = none := by
  refine ⟨by decide, fun fuel => ?_⟩
  rw [Option.eq_none_iff_forall_ne_some]
  intro count h
  obtain ⟨depth, -, hdepth, -⟩ := (calculateAddTreeIterations_eq_some (by decide)).mp h
  have htree : 16 ≤ ((vectorConfig 8).coreConfig 0).vectorProcessBit ∨ 2 ≤ 1 :=
    (exists_depth_calculationUnit_iff (by decide)).mp ⟨depth, hdepth⟩
  exact absurd htree (by decide)

/-- A vector instruction gets a latency exactly if its tree ends, also where the instruction has no tree. -/
theorem getVectorComputeCycles_isSome_iff (hbits : 8 ≤ (config.coreConfig c.id).vectorProcessBit)
    (inst : Instruction) :
    (getVectorComputeCycles config c inst).isSome ↔
      16 ≤ (config.coreConfig c.id).vectorProcessBit ∨ inst.computeSize ≤ 1 := by
  have hpos := calculationUnit_pos hbits
  rw [← exists_depth_calculationUnit_iff hbits]
  unfold getVectorComputeCycles
  constructor
  · intro h
    obtain ⟨cycles, h⟩ := Option.isSome_iff_exists.mp h
    obtain ⟨_, -, h⟩ := Option.bind_eq_some_iff.mp h
    obtain ⟨iterations, htree, -⟩ := Option.bind_eq_some_iff.mp h
    obtain ⟨depth, -, hdepth, -⟩ := (calculateAddTreeIterations_eq_some hpos).mp htree
    exact ⟨depth, hdepth⟩
  · rintro ⟨depth, hdepth⟩
    have htree := (calculateAddTreeIterations_enough hpos).mpr ⟨depth + 1,
      (calculateAddTreeIterations_eq_some hpos).mpr ⟨depth, depth.lt_succ_self, hdepth, rfl⟩⟩
    unfold calculateVectorOpIterations
    simp only [htree, if_neg hpos.ne', Option.bind_eq_bind, Option.bind_some]
    cases inst.opcode <;> rfl

end Core

end OnnxSim
