import Mathlib.Algebra.BigOperators.Intervals
import Mathlib.Algebra.Order.Floor.Div

/-!
# Reduction trees

A unit of some arity takes that many elements and leaves one, so a level of `n` elements takes
`n ⌈/⌉ arity` units and leaves as many elements. The tree ends with the first level that one unit takes:
there is one if a unit takes two elements or more (`exists_depth_iff`), and the tree then has no more
units than twice its leaves (`Depth.units_le`).
-/

namespace ReductionTree

/-- The elements of each level. -/
def level (arity size : Nat) : Nat → Nat
  | 0 => size
  | i + 1 => level arity size i ⌈/⌉ arity

/-- The first level that a single unit takes. -/
structure Depth (arity size depth : Nat) : Prop where
  last : level arity size depth ≤ arity
  wide : ∀ i < depth, arity < level arity size i

/-- The units of a tree: those of its wide levels, and the last one. -/
def units (arity size depth : Nat) : Nat :=
  (∑ i ∈ Finset.range depth, level arity size i ⌈/⌉ arity) + 1

variable {arity size depth d : Nat}

/-- The tree over the first level. -/
theorem level_succ (arity size i : Nat) :
    level arity size (i + 1) = level arity (size ⌈/⌉ arity) i := by
  induction i with
  | zero => rfl
  | succ i ih => exact congrArg (· ⌈/⌉ arity) ih

theorem units_succ (arity size depth : Nat) :
    units arity size (depth + 1) = size ⌈/⌉ arity + units arity (size ⌈/⌉ arity) depth := by
  unfold units
  rw [Finset.sum_range_succ']
  simp only [level_succ]
  change (∑ i ∈ Finset.range depth, _) + size ⌈/⌉ arity + 1 = _
  omega

theorem depth_zero_iff : Depth arity size 0 ↔ size ≤ arity :=
  ⟨fun h => h.last, fun h => ⟨h, fun _ hi => absurd hi (Nat.not_lt_zero _)⟩⟩

theorem depth_succ_iff :
    Depth arity size (depth + 1) ↔ arity < size ∧ Depth arity (size ⌈/⌉ arity) depth := by
  constructor
  · intro h
    refine ⟨h.wide 0 depth.succ_pos, ?_, fun i hi => ?_⟩
    · rw [← level_succ]
      exact h.last
    · rw [← level_succ]
      exact h.wide (i + 1) (Nat.succ_lt_succ hi)
  · rintro ⟨hwide, hrest⟩
    refine ⟨?_, fun i hi => ?_⟩
    · rw [level_succ]
      exact hrest.last
    · cases i with
      | zero => exact hwide
      | succ i =>
        rw [level_succ]
        exact hrest.wide i (Nat.lt_of_succ_lt_succ hi)

/-- A tree has one depth. -/
theorem Depth.unique (h : Depth arity size depth) (h' : Depth arity size d) : depth = d := by
  apply Nat.le_antisymm
  · by_contra hlt
    exact absurd h'.last (Nat.not_le.mpr (h.wide d (by omega)))
  · by_contra hlt
    exact absurd h.last (Nat.not_le.mpr (h'.wide depth (by omega)))

/-- A wide level shrinks to two thirds, rounded, where a unit takes two elements or more. -/
theorem three_mul_ceilDiv_le (h : 2 ≤ arity) (hwide : arity < size) :
    3 * (size ⌈/⌉ arity) ≤ 2 * size := by
  have hhalf : size ⌈/⌉ arity ≤ (size + 1) / 2 := by
    rw [ceilDiv_le_iff_le_mul (by omega)]
    have hmul := Nat.mul_le_mul_right ((size + 1) / 2) h
    omega
  omega

/-- With units of two elements or more the tree ends, at a depth below the number of its leaves. -/
theorem exists_depth (h : 2 ≤ arity) (size : Nat) :
    ∃ depth ≤ size, Depth arity size depth := by
  induction size using Nat.strong_induction_on with
  | _ size ih =>
    by_cases hwide : arity < size
    · have hshrink := three_mul_ceilDiv_le h hwide
      obtain ⟨depth, hle, hdepth⟩ := ih (size ⌈/⌉ arity) (by omega)
      exact ⟨depth + 1, by omega, depth_succ_iff.mpr ⟨hwide, hdepth⟩⟩
    · exact ⟨0, size.zero_le, depth_zero_iff.mpr (by omega)⟩

/-- A unit of one element leaves each level as it is. -/
@[simp] theorem level_one (size i : Nat) : level 1 size i = size := by
  induction i with
  | zero => rfl
  | succ i ih => rw [level, ih, Nat.ceilDiv_eq_add_pred_div, Nat.add_sub_cancel, Nat.div_one]

theorem exists_depth_iff (h : 1 ≤ arity) :
    (∃ depth, Depth arity size depth) ↔ 2 ≤ arity ∨ size ≤ arity := by
  constructor
  · rintro ⟨depth, hdepth⟩
    by_cases htwo : 2 ≤ arity
    · exact .inl htwo
    · obtain rfl : arity = 1 := by omega
      have hlast := hdepth.last
      rw [level_one] at hlast
      exact .inr hlast
  · rintro (htwo | hsize)
    · obtain ⟨depth, -, hdepth⟩ := exists_depth htwo size
      exact ⟨depth, hdepth⟩
    · exact ⟨0, depth_zero_iff.mpr hsize⟩

/-- The tree has no more units than twice its leaves, or the one that every tree has. -/
theorem Depth.units_le (h : 2 ≤ arity) (hdepth : Depth arity size depth) :
    units arity size depth ≤ max 1 (2 * size) := by
  induction depth generalizing size with
  | zero => exact Nat.le_max_left _ _
  | succ depth ih =>
    obtain ⟨hwide, hrest⟩ := depth_succ_iff.mp hdepth
    have hshrink := three_mul_ceilDiv_le h hwide
    have hle := ih hrest
    rw [units_succ]
    omega

end ReductionTree
