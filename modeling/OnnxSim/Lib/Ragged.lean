import Mathlib.Algebra.BigOperators.Group.List.Basic
import Mathlib.Algebra.Ring.Nat

/-!
# Rows of several lengths, one behind the other

Rows of the lengths `lengths` in one sequence: row `b` starts at `start lengths b`, and its element `j` is
number `start lengths b + j` of the sequence.
-/

namespace Ragged

variable {lengths : List Nat} {b c i j : Nat}

/-- Where row `b` starts. A row behind the last one starts at the end. -/
def start (lengths : List Nat) (b : Nat) : Nat := (lengths.take b).sum

@[simp] theorem start_zero (lengths : List Nat) : start lengths 0 = 0 := rfl

theorem start_succ (lengths : List Nat) (b : Nat) :
    start lengths (b + 1) = start lengths b + lengths.getD b 0 := by
  unfold start
  rw [List.take_add_one, List.sum_append, List.getD_eq_getElem?_getD]
  cases lengths[b]? <;> simp

theorem start_of_length_le (h : lengths.length ≤ b) : start lengths b = lengths.sum := by
  unfold start
  rw [List.take_of_length_le h]

theorem start_mono (h : b ≤ c) : start lengths b ≤ start lengths c := by
  induction h with
  | refl => exact Nat.le_refl _
  | step _ ih =>
    rw [start_succ]
    omega

/-- A row ends before a later one starts. -/
theorem start_add_le (lengths : List Nat) (h : b < c) : start lengths b + lengths.getD b 0 ≤ start lengths c := by
  rw [← start_succ]
  exact start_mono h

theorem lt_length_of_start_lt (h : start lengths b < lengths.sum) : b < lengths.length := by
  by_contra hle
  rw [start_of_length_le (by omega)] at h
  exact Nat.lt_irrefl _ h

/-- The elements of the rows are in the sequence. -/
theorem start_add_lt_sum (hj : j < lengths.getD b 0) : start lengths b + j < lengths.sum := by
  have hend : start lengths b + lengths.getD b 0 ≤ start lengths (max (b + 1) lengths.length) :=
    start_add_le lengths (by omega)
  rw [start_of_length_le (Nat.le_max_right _ _)] at hend
  omega

/-- If no row is empty, one that starts before the end has elements. -/
theorem getD_pos (hpos : ∀ len ∈ lengths, 0 < len) (h : start lengths b < lengths.sum) :
    0 < lengths.getD b 0 := by
  have hlt := lt_length_of_start_lt h
  rw [List.getD_eq_getElem?_getD, List.getElem?_eq_getElem hlt]
  exact hpos _ (List.getElem_mem hlt)

end Ragged
