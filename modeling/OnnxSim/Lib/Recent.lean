import Mathlib.Data.List.Basic

/-!
# Histories and shift registers

A history is a list with the newest entry last. What holds of each entry after those before it
(`EachAfter`) holds of one more entry if it does of the last (`eachAfter_snoc_iff`), and what two entries
so many places apart have to do with each other is a matter of the last one, too (`Spaced.snoc`).

A register of `n` places that takes a new entry at the front and drops its last one holds the last `n`
entries of all it has been given, the newest first, and its initial content where there were fewer
(`recent_push`). Looked at from behind, an entry that is at place `k` or beyond either was so before the
last push or has just come to place `k` (`mem_drop_push`).
-/

namespace Recent

variable {α : Type*} {n k : Nat} {pad x : α} {l : List α}

/-- The last `n` entries of `l`, the newest first, filled up with `pad`. -/
def recent (n : Nat) (pad : α) (l : List α) : List α := (l.reverse ++ List.replicate n pad).take n

@[simp] theorem recent_nil : recent n pad [] = List.replicate n pad := by
  simp [recent]

@[simp] theorem length_recent : (recent n pad l).length = n := by
  simp [recent]

/-- A new entry at the front, and the last one dropped. -/
theorem recent_push (hn : 0 < n) : x :: (recent n pad l).dropLast = recent n pad (l ++ [x]) := by
  obtain ⟨m, rfl⟩ := Nat.exists_eq_add_of_lt hn
  simp only [Nat.zero_add]
  have hdrop : (recent (m + 1) pad l).dropLast =
      (l.reverse ++ List.replicate (m + 1) pad).take m := by
    rw [List.dropLast_eq_take, length_recent, recent, List.take_take]
    simp
  rw [hdrop, recent, List.reverse_append, List.reverse_singleton, List.singleton_append,
    List.cons_append, List.take_succ_cons]

theorem recent_getD (hk : k < n) : (recent n pad l).getD k pad = l.reverse.getD k pad := by
  unfold recent
  rw [List.getD_eq_getElem?_getD, List.getElem?_take, if_pos hk, List.getD_eq_getElem?_getD]
  by_cases hlength : k < l.reverse.length
  · rw [List.getElem?_append_left hlength]
  · have hle : l.reverse.length ≤ k := Nat.le_of_not_lt hlength
    have hrest : k - l.reverse.length < n := by omega
    rw [List.getElem?_append_right hle, List.getElem?_replicate, if_pos hrest,
      List.getElem?_eq_none hle]
    rfl

/-- What is at place `k` or beyond after a push. -/
theorem mem_drop_push {y : α} :
    y ∈ (l ++ [x]).reverse.drop k ↔ (l ++ [x]).reverse[k]? = some y ∨ y ∈ l.reverse.drop k := by
  rw [List.reverse_append, List.reverse_singleton, List.singleton_append]
  have hsplit : (x :: l.reverse).drop k = (x :: l.reverse)[k]?.toList ++ l.reverse.drop k := by
    rw [List.drop_eq_getElem?_toList_append, List.drop_succ_cons]
  rw [hsplit, List.mem_append, Option.mem_toList]

/-! ## Histories -/

/-- Each entry is related to the history before it. -/
def EachAfter (P : List α → α → Prop) (l : List α) : Prop :=
  ∀ before e after, l = before ++ e :: after → P before e

theorem eachAfter_nil (P : List α → α → Prop) : EachAfter P [] := by
  intro before e after h
  simp at h

theorem eachAfter_snoc_iff {P : List α → α → Prop} :
    EachAfter P (l ++ [x]) ↔ EachAfter P l ∧ P l x := by
  constructor
  · intro h
    refine ⟨fun before e after heq => h before e (after ++ [x]) ?_, h l x [] rfl⟩
    rw [heq]
    simp
  · rintro ⟨h, hx⟩ before e after heq
    rcases List.eq_nil_or_concat after with rfl | ⟨rest, y, rfl⟩
    · obtain ⟨rfl, hlast⟩ := List.append_inj' heq rfl
      obtain rfl := List.singleton_inj.mp hlast
      exact hx
    · rw [List.concat_eq_append, ← List.cons_append, ← List.append_assoc] at heq
      obtain ⟨rfl, -⟩ := List.append_inj' heq rfl
      exact h before e rest rfl

theorem EachAfter.mono {P Q : List α → α → Prop} (h : EachAfter P l) (hPQ : ∀ l x, P l x → Q l x) :
    EachAfter Q l := fun before e after heq => hPQ before e (h before e after heq)

/-- Entries that are `k` places apart. -/
def Spaced (k : Nat) (R : α → α → Prop) (l : List α) : Prop :=
  ∀ i x y, l[i]? = some x → l[i + k]? = some y → R x y

theorem Spaced.nil (R : α → α → Prop) : Spaced k R [] := fun _ _ _ h => by cases h

/-- The new entry and the one `k` places before it. -/
theorem Spaced.snoc {R : α → α → Prop} (h : Spaced k R l)
    (hx : ∀ y ∈ (l ++ [x]).reverse.drop k, R y x) : Spaced k R (l ++ [x]) := by
  intro i y z hy hz
  rcases Nat.lt_or_ge (i + k) l.length with hlt | hge
  · rw [List.getElem?_append_left (by omega)] at hy
    rw [List.getElem?_append_left hlt] at hz
    exact h i y z hy hz
  · obtain ⟨hi, hget⟩ := List.getElem?_eq_some_iff.mp hz
    rw [List.length_append, List.length_singleton] at hi
    obtain rfl : x = z := by
      rw [List.getElem_append_right hge] at hget
      simpa using hget
    refine hx y (List.mem_iff_getElem?.mpr ⟨0, ?_⟩)
    have hlength : (l ++ [x]).length = l.length + 1 := by simp
    rw [List.getElem?_drop, List.getElem?_reverse (by rw [hlength]; omega), ← hy]
    congr 1
    omega

end Recent
