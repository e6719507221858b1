import Mathlib.Data.List.Perm.Basic
import Mathlib.Data.List.Perm.Subperm
import Mathlib.Data.List.Induction
import Mathlib.Logic.Function.Basic

/-!
# Families of queues

A family of queues is a function from an index to a list. What is in the first `n` queues together
is a bag: `pool n q`, a list taken up to permutation. The operations of the queues put elements into
that bag and take them out of it.
-/

namespace Queues

universe u

variable {α : Type u} {n i : Nat} {q : Nat → List α} {x : α}

/-- The elements of the first `n` queues. -/
def pool (n : Nat) (q : Nat → List α) : List α := (List.range n).flatMap q

theorem mem_pool : x ∈ pool n q ↔ ∃ i < n, x ∈ q i := by
  unfold pool
  simp [List.mem_flatMap]

theorem pool_eq_nil : pool n q = [] ↔ ∀ i < n, q i = [] := by
  unfold pool
  simp [List.flatMap_eq_nil_iff]

@[simp] theorem pool_empty : pool n (fun _ => ([] : List α)) = [] := pool_eq_nil.mpr fun _ _ => rfl

theorem pool_succ : pool (n + 1) q = pool n q ++ q n := by
  unfold pool
  rw [List.range_succ, List.flatMap_append]
  simp

/-- A queue beyond the first `n` does not count. -/
theorem pool_update_of_le (h : n ≤ i) (l : List α) :
    pool n (Function.update q i l) = pool n q := by
  induction n with
  | zero => rfl
  | succ n ih =>
    rw [pool_succ, pool_succ, ih (Nat.le_of_succ_le h), Function.update_of_ne (by omega)]

/-- One element more in one of the queues is one element more in all. -/
theorem pool_update_perm (h : i < n) {l : List α} (hl : l.Perm (x :: q i)) :
    (pool n (Function.update q i l)).Perm (x :: pool n q) := by
  induction n with
  | zero => exact absurd h (Nat.not_lt_zero i)
  | succ n ih =>
    rw [pool_succ, pool_succ]
    rcases Nat.lt_succ_iff_lt_or_eq.mp h with hlt | rfl
    · rw [Function.update_of_ne (by omega)]
      exact (ih hlt).append_right _
    · rw [pool_update_of_le (Nat.le_refl i), Function.update_self]
      exact (hl.append_left _).trans List.perm_middle

theorem pool_push (h : i < n) :
    (pool n (Function.update q i (q i ++ [x]))).Perm (x :: pool n q) :=
  pool_update_perm h (List.perm_append_singleton x (q i))

/-- One element fewer in one of the queues. -/
theorem pool_remove (h : i < n) {l : List α} (hl : (q i).Perm (x :: l)) :
    (pool n q).Perm (x :: pool n (Function.update q i l)) := by
  have hperm := pool_update_perm (q := Function.update q i l) (l := q i) h
    (by rwa [Function.update_self])
  rwa [Function.update_idem, Function.update_eq_self] at hperm

/-- Where the elements of all queues have different keys, no two queues share a key. -/
theorem pool_keys {β : Type*} {f : α → β} (h : ((pool n q).map f).Nodup) {j : Nat} (hi : i < n)
    (hj : j < n) (hij : i ≠ j) {x y : α} (hx : x ∈ q i) (hy : y ∈ q j) : f x ≠ f y := by
  induction n with
  | zero => exact absurd hi (Nat.not_lt_zero i)
  | succ n ih =>
    rw [pool_succ, List.map_append, List.nodup_append] at h
    obtain ⟨hn, -, hdisjoint⟩ := h
    rcases Nat.lt_succ_iff_lt_or_eq.mp hi with hi | rfl
    · rcases Nat.lt_succ_iff_lt_or_eq.mp hj with hj | rfl
      · exact ih hn hi hj
      · exact hdisjoint _ (List.mem_map_of_mem (mem_pool.mpr ⟨i, hi, hx⟩)) _
          (List.mem_map_of_mem hy)
    · have hj : j < i := by omega
      exact (hdisjoint _ (List.mem_map_of_mem (mem_pool.mpr ⟨j, hj, hy⟩)) _
        (List.mem_map_of_mem hx)).symm

/-- Where the elements of all queues have different keys, those of each queue have. -/
theorem pool_keys_self {β : Type*} {f : α → β} (h : ((pool n q).map f).Nodup) (hi : i < n) :
    ((q i).map f).Nodup := by
  induction n with
  | zero => exact absurd hi (Nat.not_lt_zero i)
  | succ n ih =>
    rw [pool_succ, List.map_append, List.nodup_append] at h
    rcases Nat.lt_succ_iff_lt_or_eq.mp hi with hi | rfl
    · exact ih h.1 hi
    · exact h.2.1

/-- Several elements more in one of the queues. -/
theorem pool_append (h : i < n) (l : List α) :
    (pool n (Function.update q i (q i ++ l))).Perm (pool n q ++ l) := by
  induction l using List.reverseRecOn with
  | nil => simp
  | append_singleton l x ih =>
    have hpush := pool_push (q := Function.update q i (q i ++ l)) (x := x) h
    rw [Function.update_idem, Function.update_self, List.append_assoc] at hpush
    refine hpush.trans ((ih.cons x).trans ?_)
    rw [← List.append_assoc]
    exact (List.perm_append_singleton x _).symm

/-! ## Two indices -/

section Grid

variable {m j : Nat} {g : Nat → Nat → List α}

/-- The elements of the queues of an `m` by `n` grid. -/
def grid (m n : Nat) (g : Nat → Nat → List α) : List α := pool m fun i => pool n (g i)

/-- One queue of a grid replaced. -/
def setAt (g : Nat → Nat → List α) (i j : Nat) (l : List α) : Nat → Nat → List α :=
  Function.update g i (Function.update (g i) j l)

@[simp] theorem setAt_self (l : List α) : setAt g i j l i j = l := by
  simp only [setAt, Function.update_self]

theorem setAt_of_ne {i' j' : Nat} (h : i' ≠ i ∨ j' ≠ j) (l : List α) :
    setAt g i j l i' j' = g i' j' := by
  unfold setAt
  by_cases hi : i' = i
  · subst hi
    rw [Function.update_self, Function.update_of_ne (h.resolve_left fun hn => hn rfl)]
  · rw [Function.update_of_ne hi]

theorem mem_grid : x ∈ grid m n g ↔ ∃ i < m, ∃ j < n, x ∈ g i j := by
  simp only [grid, mem_pool]

@[simp] theorem grid_empty : grid m n (fun _ _ => ([] : List α)) = [] := by
  unfold grid
  simp only [pool_empty]

private theorem grid_setAt (l : List α) :
    grid m n (setAt g i j l) =
      pool m (Function.update (fun i => pool n (g i)) i (pool n (Function.update (g i) j l))) := by
  unfold grid
  congr 1
  funext i'
  by_cases hi : i' = i
  · subst hi
    simp only [setAt, Function.update_self]
  · simp only [setAt, Function.update_of_ne hi]

theorem grid_push (hi : i < m) (hj : j < n) :
    (grid m n (setAt g i j (g i j ++ [x]))).Perm (x :: grid m n g) := by
  rw [grid_setAt]
  exact pool_update_perm hi (pool_push hj)

theorem grid_remove (hi : i < m) (hj : j < n) {l : List α} (hl : (g i j).Perm (x :: l)) :
    (grid m n g).Perm (x :: grid m n (setAt g i j l)) := by
  rw [grid_setAt]
  exact pool_remove hi (pool_remove hj hl)

end Grid

end Queues
