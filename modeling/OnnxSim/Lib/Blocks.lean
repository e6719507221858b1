import Mathlib.Algebra.BigOperators.Ring.List
import Mathlib.Algebra.Ring.Nat
import Mathlib.Data.List.Basic

/-!
# Blocks of consecutive numbers

A loop over a range in blocks. `Tiles a l b` says that the blocks of `l`, each given by its first number
and how many it has, follow one another from `a` up to `b`. Then their sizes add up, and each number
between is in one of them.
-/

namespace Blocks

/-- The blocks follow one another from `a` to `b`, and none is empty. -/
def Tiles : Nat → List (Nat × Nat) → Nat → Prop
  | a, [], b => a = b
  | a, block :: rest, b => block.1 = a ∧ 0 < block.2 ∧ Tiles (a + block.2) rest b

/-- `x` is in the block. -/
def Mem (x : Nat) (block : Nat × Nat) : Prop := block.1 ≤ x ∧ x < block.1 + block.2

instance (x : Nat) (block : Nat × Nat) : Decidable (Mem x block) :=
  inferInstanceAs (Decidable (_ ∧ _))

variable {a b c : Nat} {l l' : List (Nat × Nat)}

theorem Tiles.le (h : Tiles a l b) : a ≤ b := by
  induction l generalizing a with
  | nil => exact Nat.le_of_eq h
  | cons block rest ih =>
    obtain ⟨-, -, hrest⟩ := h
    exact Nat.le_trans (Nat.le_add_right _ _) (ih hrest)

theorem Tiles.append (h : Tiles a l b) (h' : Tiles b l' c) : Tiles a (l ++ l') c := by
  induction l generalizing a with
  | nil =>
    obtain rfl : a = b := h
    exact h'
  | cons block rest ih =>
    obtain ⟨hstart, hpos, hrest⟩ := h
    exact ⟨hstart, hpos, ih hrest⟩

/-- Blocks of blocks. -/
theorem Tiles.flatMap {f : Nat → Nat} {g : Nat → List (Nat × Nat)} {n : Nat}
    (h : ∀ i < n, Tiles (f i) (g i) (f (i + 1))) :
    Tiles (f 0) ((List.range n).flatMap g) (f n) := by
  induction n with
  | zero => exact rfl
  | succ n ih =>
    rw [List.range_succ, List.flatMap_append, List.flatMap_singleton]
    exact (ih fun i hi => h i (Nat.lt_succ_of_lt hi)).append (h n (Nat.lt_succ_self n))

theorem Tiles.sum (h : Tiles a l b) : a + (l.map (·.2)).sum = b := by
  induction l generalizing a with
  | nil => exact h
  | cons block rest ih =>
    obtain ⟨-, -, hrest⟩ := h
    rw [List.map_cons, List.sum_cons, ← Nat.add_assoc]
    exact ih hrest

/-- Each number from `a` to `b` is in one block, and no other is in any. -/
theorem Tiles.countP (h : Tiles a l b) (x : Nat) :
    l.countP (fun block => decide (Mem x block)) = if a ≤ x ∧ x < b then 1 else 0 := by
  induction l generalizing a with
  | nil =>
    obtain rfl : a = b := h
    rw [List.countP_nil, if_neg (by omega)]
  | cons block rest ih =>
    obtain ⟨rfl, hpos, hrest⟩ := h
    have hle := hrest.le
    rw [List.countP_cons, ih hrest]
    simp only [decide_eq_true_eq]
    by_cases hx : Mem x block
    · obtain ⟨hle', hlt⟩ := id hx
      rw [if_neg (by omega), if_pos hx, if_pos (by omega)]
    · have hout : ¬ (block.1 ≤ x ∧ x < block.1 + block.2) := hx
      rw [if_neg hx, Nat.add_zero]
      exact if_congr (by omega) rfl rfl

theorem Tiles.exists_mem_iff (h : Tiles a l b) (x : Nat) :
    (∃ block ∈ l, Mem x block) ↔ a ≤ x ∧ x < b := by
  have hcount := h.countP x
  constructor
  · rintro ⟨block, hblock, hx⟩
    by_contra hout
    rw [if_neg hout, List.countP_eq_zero] at hcount
    exact hcount block hblock (by simpa using hx)
  · intro hin
    rw [if_pos hin] at hcount
    obtain ⟨block, hblock, hx⟩ := List.countP_pos_iff.mp (hcount ▸ Nat.one_pos)
    exact ⟨block, hblock, by simpa using hx⟩

/-! ## Nested loops -/

universe u v

variable {α : Type u} {β : Type v}

/-- A loop that breaks off and one that skips make the same turns, where no turn comes after one that is
left out. -/
theorem takeWhile_eq_filter {p : α → Bool} {xs : List α}
    (h : xs.Pairwise fun x y => p y = true → p x = true) : xs.takeWhile p = xs.filter p := by
  induction h with
  | nil => rfl
  | @cons x xs hx _ ih =>
    by_cases hp : p x = true
    · rw [List.takeWhile_cons_of_pos hp, List.filter_cons_of_pos hp, ih]
    · rw [List.takeWhile_cons_of_neg hp, List.filter_cons_of_neg hp, List.filter_eq_nil_iff.mpr]
      exact fun y hy hpy => hp (hx y hy hpy)

theorem sum_flatMap (g : α → List β) (f : β → Nat) (xs : List α) :
    ((xs.flatMap g).map f).sum = (xs.map fun x => ((g x).map f).sum).sum := by
  induction xs with
  | nil => rfl
  | cons x xs ih => simp [ih]

/-- A sum over two nested loops, of a product. -/
theorem sum_product (xs : List α) (ys : List β) (f : α → Nat) (g : β → Nat) :
    ((xs.flatMap fun x => ys.map fun y => (x, y)).map fun p => f p.1 * g p.2).sum =
      (xs.map f).sum * (ys.map g).sum := by
  have hrow : ∀ x, ((ys.map fun y => (x, y)).map fun p => f p.1 * g p.2).sum =
      f x * (ys.map g).sum := by
    intro x
    rw [List.map_map]
    exact List.sum_map_mul_left ys g (f x)
  rw [sum_flatMap]
  simp only [hrow]
  exact List.sum_map_mul_right xs f _

theorem countP_product (xs : List α) (ys : List β) (p : α → Bool) (q : β → Bool) :
    (xs.flatMap fun x => ys.map fun y => (x, y)).countP (fun z => p z.1 && q z.2) =
      xs.countP p * ys.countP q := by
  induction xs with
  | nil => simp
  | cons x xs ih =>
    rw [List.flatMap_cons, List.countP_append, ih, List.countP_map, List.countP_cons, Nat.add_mul,
      Nat.add_comm]
    cases hp : p x <;> simp [Function.comp_def, hp]

end Blocks
