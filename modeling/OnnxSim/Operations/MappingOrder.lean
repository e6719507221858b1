import Mathlib.Data.List.Lex
import Mathlib.Data.Set.Basic
import Mathlib.Tactic.Tauto
import OnnxSim.Lib.SearchTree
import OnnxSim.Operations.MappingTable

/-!
# The order of the mapping keys

`operator<` goes through six of the loop counts both ways, and then through the padding and the stride one
way only, before it compares the last loop count. It is a strict order on all keys (`lt_trans`), but two keys
that differ in their last count are incomparable where the padding or the stride grows the other way
(`Crossed`), and `operator==` tells them apart. So the map has the order it asks for on the keys of which no
two are crossed (`keyOrder_iff`): those that have tilings (`isConv_not_crossed`), and those of a mapping
file, which all have the same padding and stride (`not_crossed_of_eq`). A file's keys and the key of a layer
without padding can be crossed.
-/

namespace OnnxSim

namespace MappingKey

variable {a b c : MappingKey} {K : Set MappingKey}

/-- `operator==`, which leaves out the padding, the stride and the core. -/
def eq (a b : MappingKey) : Bool :=
  a.N == b.N && a.C == b.C && a.M == b.M && a.S == b.S && a.R == b.R && a.Q == b.Q && a.P == b.P

/-- The counts that `operator<` compares first, both ways. -/
def outer (key : MappingKey) : List Nat := [key.N, key.C, key.M, key.S, key.R, key.Q]

/-- Neither key is less, and they are not equal: with the same first counts, the key with fewer `P` has more
padding or more stride. -/
def Crossed (a b : MappingKey) : Prop :=
  a.outer = b.outer ∧ a.P < b.P ∧ (b.padding < a.padding ∨ b.stride < a.stride)

instance (a b : MappingKey) : Decidable (Crossed a b) := inferInstanceAs (Decidable (_ ∧ _))

/-- What `std::map` asks of the order on the keys in `K`, with `operator==` for the keys it takes for
one. -/
structure KeyOrder (K : Set MappingKey) : Prop where
  irrefl : ∀ a ∈ K, ¬ a.lt a
  asymm : ∀ a ∈ K, ∀ b ∈ K, a.lt b → ¬ b.lt a
  trans : ∀ a ∈ K, ∀ b ∈ K, ∀ c ∈ K, a.lt b → b.lt c → a.lt c
  equiv_trans : ∀ a ∈ K, ∀ b ∈ K, ∀ c ∈ K, a.equiv b → b.equiv c → a.equiv c
  equiv_iff_eq : ∀ a ∈ K, ∀ b ∈ K, a.equiv b ↔ a.eq b

/-! ## The cascade -/

/-- One count compared both ways. -/
theorem cascade_iff {x y : Nat} {rest : Bool} :
    (if x < y then true else if x > y then false else rest) = true ↔ x < y ∨ x = y ∧ rest = true := by
  rcases Nat.lt_trichotomy x y with h | rfl | h
  · simp [h]
  · simp
  · simp [h, h.not_gt, h.ne']

/-- Two lists compared to their end, and then by `p`. -/
theorem lex_cons_iff {x y : Nat} {l l' : List Nat} {p : Prop} :
    (x :: l < y :: l' ∨ x :: l = y :: l' ∧ p) ↔ x < y ∨ x = y ∧ (l < l' ∨ l = l' ∧ p) := by
  rw [List.cons_lt_cons_iff, List.cons.injEq]
  tauto

/-- The order: by the first counts and, where these agree, by three fields at once. -/
theorem lt_iff : a.lt b ↔ a.outer < b.outer ∨
    a.outer = b.outer ∧ a.padding ≤ b.padding ∧ a.stride ≤ b.stride ∧ a.P < b.P := by
  unfold lt outer
  simp only [cascade_iff, lex_cons_iff]
  by_cases hpadding : a.padding ≤ b.padding
  · by_cases hstride : a.stride ≤ b.stride
    · simp [hpadding, hstride]
    · simp [hpadding, hstride, Nat.not_le.mp hstride]
  · simp [hpadding, Nat.not_le.mp hpadding]

theorem eq_iff : a.eq b ↔ a.outer = b.outer ∧ a.P = b.P := by
  simp [eq, outer, and_assoc]

/-! ## The laws -/

theorem not_lt_self (a : MappingKey) : ¬ a.lt a := by
  rw [lt_iff]
  rintro (h | ⟨-, -, -, h⟩)
  · exact lt_irrefl _ h
  · exact Nat.lt_irrefl _ h

theorem lt_trans (hab : a.lt b) (hbc : b.lt c) : a.lt c := by
  rw [lt_iff] at hab hbc ⊢
  rcases hab with hab | ⟨hab, hpadding, hstride, hP⟩
  · rcases hbc with hbc | ⟨hbc, -⟩
    · exact .inl (hab.trans hbc)
    · exact .inl (hbc ▸ hab)
  · rw [hab]
    rcases hbc with hbc | ⟨hbc, hpadding', hstride', hP'⟩
    · exact .inl hbc
    · exact .inr ⟨hbc, hpadding.trans hpadding', hstride.trans hstride', hP.trans hP'⟩

theorem lt_asymm (hab : a.lt b) : ¬ b.lt a :=
  fun hba => not_lt_self a (lt_trans hab hba)

/-- Two keys are incomparable if they are equal or crossed. -/
theorem equiv_iff_eq_or_crossed : a.equiv b ↔ a.eq b ∨ Crossed a b ∨ Crossed b a := by
  unfold equiv Crossed
  rw [Bool.and_eq_true, Bool.not_eq_true', Bool.not_eq_true', ← Bool.not_eq_true, ← Bool.not_eq_true,
    lt_iff, lt_iff, eq_iff]
  rcases lt_trichotomy a.outer b.outer with h | h | h
  · simp [h, h.ne, h.ne']
  · simp only [h, true_and, lt_irrefl, false_or]
    omega
  · simp [h, h.ne, h.ne']

theorem Crossed.not_eq (h : Crossed a b) : ¬ a.eq b := by
  rw [eq_iff]
  rintro ⟨-, hP⟩
  exact absurd hP h.2.1.ne

theorem eq_trans (hab : a.eq b) (hbc : b.eq c) : a.eq c := by
  rw [eq_iff] at hab hbc ⊢
  exact ⟨hab.1.trans hbc.1, hab.2.trans hbc.2⟩

theorem KeyOrder.not_crossed (h : KeyOrder K) : ∀ a ∈ K, ∀ b ∈ K, ¬ Crossed a b := by
  intro a ha b hb hcrossed
  have hequiv := equiv_iff_eq_or_crossed.mpr (.inr (.inl hcrossed))
  exact hcrossed.not_eq ((h.equiv_iff_eq a ha b hb).mp hequiv)

theorem keyOrder_of_not_crossed (h : ∀ a ∈ K, ∀ b ∈ K, ¬ Crossed a b) : KeyOrder K := by
  have hequiv : ∀ a ∈ K, ∀ b ∈ K, (a.equiv b ↔ a.eq b) := by
    intro a ha b hb
    rw [equiv_iff_eq_or_crossed, or_iff_left]
    rintro (hcrossed | hcrossed)
    · exact h a ha b hb hcrossed
    · exact h b hb a ha hcrossed
  refine ⟨fun a _ => not_lt_self a, fun a _ b _ => lt_asymm, fun a _ b _ c _ => lt_trans, ?_, hequiv⟩
  intro a ha b hb c hc hab hbc
  rw [hequiv a ha b hb] at hab
  rw [hequiv b hb c hc] at hbc
  rw [hequiv a ha c hc]
  exact eq_trans hab hbc

/-- The order is the one that `std::map` asks for exactly on the sets of keys without a crossed pair. -/
theorem keyOrder_iff (K : Set MappingKey) : KeyOrder K ↔ ∀ a ∈ K, ∀ b ∈ K, ¬ Crossed a b :=
  ⟨KeyOrder.not_crossed, keyOrder_of_not_crossed⟩

/-- The keys of a convolution over a padded row of 16 and over an unpadded one of 32 are taken for one,
and a third key is incomparable with both of two keys in order. -/
theorem not_keyOrder : ¬ KeyOrder Set.univ ∧
    (equiv { P := 16 } { P := 32, padding := 0 } ∧ ¬ eq { P := 16 } { P := 32, padding := 0 }) ∧
    (equiv { P := 16 } { P := 16, padding := 0 } ∧ equiv { P := 16 } { P := 32, padding := 0 } ∧
      lt { P := 16, padding := 0 } { P := 32, padding := 0 }) := by
  refine ⟨fun h => ?_, by decide, by decide⟩
  exact h.not_crossed { P := 16 } trivial { P := 32, padding := 0 } trivial (by decide)

/-! ## The keys in use -/

/-- Keys that have tilings are not crossed. -/
theorem isConv_not_crossed (ha : a.IsConv) (hb : b.IsConv) : ¬ Crossed a b := by
  rintro ⟨houter, hP, -⟩
  simp only [outer, List.cons.injEq] at houter
  have hQ : a.Q = b.Q := houter.2.2.2.2.2.1
  rw [ha.1, hb.1, hQ] at hP
  exact Nat.lt_irrefl _ hP

/-- Nor are keys with the same padding and stride, such as the keys of a mapping file. -/
theorem not_crossed_of_eq (hpadding : a.padding = b.padding) (hstride : a.stride = b.stride) :
    ¬ Crossed a b := by
  rintro ⟨-, -, h | h⟩
  · exact absurd hpadding h.ne'
  · exact absurd hstride h.ne'

theorem keyOrder_isConv : KeyOrder { key | key.IsConv } :=
  keyOrder_of_not_crossed fun _ ha _ hb => isConv_not_crossed ha hb

/-! ## Lookups -/

section Lookup

variable {t : SearchTree MappingKey Mapping} {key : MappingKey}

/-- The table finds what the search tree of `std::map` does. -/
theorem find_entries (hsorted : t.Sorted lt) :
    MappingTable.find t.entries key = (t.find lt key).map (·.2) := by
  have hfind : t.find lt key = t.entries.find? fun e => e.1.equiv key :=
    hsorted.find_eq fun _ _ _ => lt_trans
  rw [hfind]
  rfl

/-- A key that is crossed with none of the map is found under the key that equals it. -/
theorem find_eq_of_not_crossed (hsorted : t.Sorted lt)
    (h : ∀ e ∈ t.entries, ¬ Crossed e.1 key ∧ ¬ Crossed key e.1) :
    t.find lt key = t.entries.find? fun e => e.1.eq key := by
  have hfind : t.find lt key = t.entries.find? fun e => e.1.equiv key :=
    hsorted.find_eq fun _ _ _ => lt_trans
  rw [hfind, ← List.head?_filter, ← List.head?_filter]
  congr 1
  refine List.filter_congr fun e he => ?_
  obtain ⟨hleft, hright⟩ := h e he
  rw [Bool.eq_iff_iff, equiv_iff_eq_or_crossed, or_iff_left (not_or.mpr ⟨hleft, hright⟩)]

/-- A file with rows of 16 and of 32: a layer of 32 without padding is found under the rows of 16. -/
example {narrow wide : Mapping} : (SearchTree.node .leaf { P := 16 } narrow
    (.node .leaf { P := 32 } wide .leaf)).find lt { P := 32, padding := 0 } =
      some ({ P := 16 }, narrow) := rfl

end Lookup

end MappingKey

end OnnxSim
