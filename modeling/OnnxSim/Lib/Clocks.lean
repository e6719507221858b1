import Mathlib.Algebra.Order.Monoid.Canonical.Defs
import Mathlib.Data.Fintype.Lattice

/-!
# Clocks that tick at a common minimum

Each of several domains has a time and a period. In a round the domains whose time is the least all tick
(`Ticks`): their times grow by their periods, and the other times stay. No domain is ever ahead of another
by more than one of its own periods (`InStep`), because a domain that ticks was not ahead of any other.
-/

namespace Clocks

universe u v

variable {ι : Type u} {α : Type v}

/-- The time of the domain is the least. -/
def Least [LE α] (time : ι → α) (i : ι) : Prop := ∀ j, time i ≤ time j

theorem exists_least [Finite ι] [Nonempty ι] [LinearOrder α] (time : ι → α) :
    ∃ i, Least time i := Finite.exists_min time

section Round

variable [AddCommMonoid α] [LinearOrder α]

/-- One round. -/
structure Ticks (period time time' : ι → α) : Prop where
  least : ∀ i, Least time i → time' i = time i + period i
  other : ∀ i, ¬ Least time i → time' i = time i

/-- No domain is ahead of another by more than its own period. -/
def InStep (period time : ι → α) : Prop := ∀ i j, time i ≤ time j + period i

variable {period time time' : ι → α}

/-- The time of a domain is a number of its periods, one more for each round in which it ticks. -/
theorem Ticks.nsmul (h : Ticks period time time') {i : ι} {n : Nat} (hi : time i = n • period i) :
    time' i = n • period i ∧ ¬ Least time i ∨ time' i = (n + 1) • period i ∧ Least time i := by
  by_cases hleast : Least time i
  · exact .inr ⟨by rw [h.least i hleast, hi, succ_nsmul], hleast⟩
  · exact .inl ⟨by rw [h.other i hleast, hi], hleast⟩

variable [CanonicallyOrderedAdd α]

theorem Ticks.le (h : Ticks period time time') (i : ι) : time i ≤ time' i := by
  by_cases hleast : Least time i
  · rw [h.least i hleast]
    exact le_self_add
  · exact (h.other i hleast).ge

theorem inStep_zero (period : ι → α) : InStep period fun _ => 0 := fun i j => by
  rw [zero_add]
  exact zero_le

theorem InStep.tick [IsOrderedAddMonoid α] (h : InStep period time) (ht : Ticks period time time') :
    InStep period time' := by
  intro i j
  have hj : time j + period i ≤ time' j + period i := by
    gcongr
    exact ht.le j
  by_cases hleast : Least time i
  · calc time' i = time i + period i := ht.least i hleast
      _ ≤ time j + period i := by
        gcongr
        exact hleast j
      _ ≤ time' j + period i := hj
  · rw [ht.other i hleast]
    exact (h i j).trans hj

end Round

end Clocks
