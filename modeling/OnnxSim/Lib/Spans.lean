import Mathlib.Data.BitVec
import Mathlib.Data.Set.Lattice
import Mathlib.Order.CompletePartialOrder

/-!
# Spans of machine words

`Span a n` is the set of the `n` words from `a` on; it goes on at zero after the last word. Two spans
that are not empty are apart exactly when neither starts inside the other, and for words that a counter
without a bound has passed, this is a condition on the distance modulo the number of words. The last
section has spans that lie one behind the other from a base on.
-/

namespace Spans

variable {w : Nat} {a b : BitVec w} {m n : Nat}

/-- The `n` words from `a` on. -/
def Span (a : BitVec w) (n : Nat) : Set (BitVec w) := {x | (x - a).toNat < n}

theorem mem_span_iff {x : BitVec w} : x ∈ Span a n ↔ ∃ k < n, x = a + BitVec.ofNat w k := by
  constructor
  · intro hx
    refine ⟨(x - a).toNat, hx, ?_⟩
    rw [BitVec.ofNat_toNat, BitVec.setWidth_eq, BitVec.add_comm, BitVec.sub_add_cancel]
  · rintro ⟨k, hk, rfl⟩
    have hsub : a + BitVec.ofNat w k - a = BitVec.ofNat w k := by
      rw [BitVec.add_comm, BitVec.add_sub_cancel]
    show (a + BitVec.ofNat w k - a).toNat < n
    rw [hsub, BitVec.toNat_ofNat]
    exact (Nat.mod_le _ _).trans_lt hk

@[simp] theorem span_zero (a : BitVec w) : Span a 0 = ∅ :=
  Set.eq_empty_iff_forall_notMem.mpr fun _ hx => Nat.not_lt_zero _ hx

theorem self_mem_span (a : BitVec w) (hn : 0 < n) : a ∈ Span a n := by
  show (a - a).toNat < n
  rw [BitVec.sub_self]
  exact hn

/-- Two spans are apart when neither start lies in the other. -/
theorem disjoint_iff (hm : 0 < m) (hn : 0 < n) :
    Disjoint (Span a m) (Span b n) ↔ m ≤ (b - a).toNat ∧ n ≤ (a - b).toNat := by
  rw [Set.disjoint_left]
  constructor
  · intro hdisj
    refine ⟨Nat.le_of_not_lt fun hlt => ?_, Nat.le_of_not_lt fun hlt => ?_⟩
    · exact hdisj (a := b) hlt (self_mem_span b hn)
    · exact hdisj (a := a) (self_mem_span a hm) hlt
  · rintro ⟨hb, ha⟩ x hxa hxb
    have hfirst : (x - a).toNat < m := hxa
    have hsecond : (x - b).toNat < n := hxb
    -- the start further from `x` has the other one within its span
    rcases Nat.le_total (x - b).toNat (x - a).toNat with hle | hle
    · have hback : (b - a).toNat = (x - a).toNat - (x - b).toNat := by
        rw [← BitVec.toNat_sub_of_le hle, sub_sub_sub_cancel_left]
      omega
    · have hback : (a - b).toNat = (x - b).toNat - (x - a).toNat := by
        rw [← BitVec.toNat_sub_of_le hle, sub_sub_sub_cancel_left]
      omega

/-- The distance of two words that a counter without a bound passes at `p` and then at `q`. -/
theorem toNat_sub_ofNat {p q : Nat} (h : p ≤ q) :
    (BitVec.ofNat w q - BitVec.ofNat w p).toNat = (q - p) % 2 ^ w := by
  have hsub : BitVec.ofNat w q - BitVec.ofNat w p = BitVec.ofNat w (q - p) := by
    rw [sub_eq_iff_eq_add, ← BitVec.ofNat_add, Nat.sub_add_cancel h]
  rw [hsub, BitVec.toNat_ofNat]

/-- The spans of two words that a counter passes at `p` and at `q` are apart when the distance modulo
the number of words leaves room for the first behind it, and for the second up to the next round. -/
theorem disjoint_ofNat_iff {p q : Nat} (h : p ≤ q) (hm : 0 < m) (hn : 0 < n) :
    Disjoint (Span (BitVec.ofNat w p) m) (Span (BitVec.ofNat w q) n) ↔
      m ≤ (q - p) % 2 ^ w ∧ (q - p) % 2 ^ w + n ≤ 2 ^ w := by
  rw [disjoint_iff hm hn, toNat_sub_ofNat h]
  refine and_congr_right fun hroom => ?_
  have hneg : BitVec.ofNat w p - BitVec.ofNat w q = -(BitVec.ofNat w q - BitVec.ofNat w p) :=
    (neg_sub _ _).symm
  have hlt := Nat.mod_lt (q - p) (Nat.two_pow_pos w)
  rw [hneg, BitVec.toNat_neg, toNat_sub_ofNat h, Nat.mod_eq_of_lt (by omega)]
  omega

/-! ## Consecutive spans -/

section Consecutive

variable {base : BitVec w} {p q len : Nat}

/-- Offsets from one base, without wrapping. -/
theorem mem_span_ofNat (hlen : 0 < len) (hp : p < 2 ^ w) (hq : q + len ≤ 2 ^ w) :
    base + BitVec.ofNat w p ∈ Span (base + BitVec.ofNat w q) len ↔ q ≤ p ∧ p < q + len := by
  have hsub : base + BitVec.ofNat w p - (base + BitVec.ofNat w q) =
      BitVec.ofNat w p - BitVec.ofNat w q := add_sub_add_left_eq_sub _ _ _
  show (base + BitVec.ofNat w p - (base + BitVec.ofNat w q)).toNat < len ↔ _
  rw [hsub]
  rcases Nat.lt_or_ge p q with hlt | hle
  · have hback : (BitVec.ofNat w p - BitVec.ofNat w q).toNat = 2 ^ w - (q - p) := by
      have hneg : BitVec.ofNat w p - BitVec.ofNat w q = -(BitVec.ofNat w q - BitVec.ofNat w p) :=
        (neg_sub _ _).symm
      have hdist : (q - p) % 2 ^ w = q - p := Nat.mod_eq_of_lt (by omega)
      rw [hneg, BitVec.toNat_neg, toNat_sub_ofNat hlt.le, hdist, Nat.mod_eq_of_lt (by omega)]
    rw [hback]
    omega
  · rw [toNat_sub_ofNat hle, Nat.mod_eq_of_lt (by omega)]
    omega

theorem add_ofNat_inj (hp : p < 2 ^ w) (hq : q < 2 ^ w)
    (h : base + BitVec.ofNat w p = base + BitVec.ofNat w q) : p = q := by
  have hoff := congrArg BitVec.toNat (add_left_cancel h)
  rwa [BitVec.toNat_ofNat, BitVec.toNat_ofNat, Nat.mod_eq_of_lt hp, Nat.mod_eq_of_lt hq] at hoff

/-- The first `n` blocks of `len` words from the base on cover a span exactly when it ends within
them. -/
theorem covered_iff (base : BitVec w) {n size : Nat} (hlen : 0 < len) (hp : p + size ≤ 2 ^ w) (hn : n * len ≤ 2 ^ w) :
    (∀ x ∈ Span (base + BitVec.ofNat w p) size,
      ∃ k < n, x ∈ Span (base + BitVec.ofNat w (k * len)) len) ↔ size = 0 ∨ p + size ≤ n * len := by
  have hblock : ∀ k < n, k * len + len ≤ n * len := by
    intro k hk
    calc k * len + len = (k + 1) * len := (Nat.succ_mul k len).symm
      _ ≤ n * len := Nat.mul_le_mul_right len hk
  have hword : ∀ j, base + BitVec.ofNat w p + BitVec.ofNat w j = base + BitVec.ofNat w (p + j) := by
    intro j
    rw [add_assoc, ← BitVec.ofNat_add]
  constructor
  · intro hcover
    rcases Nat.eq_zero_or_pos size with hzero | hpos
    · exact .inl hzero
    · -- the last word of the span lies in one of the blocks
      have hlast := hcover _ (mem_span_iff.mpr ⟨size - 1, by omega, rfl⟩)
      obtain ⟨k, hk, hmem⟩ := hlast
      have hend := hblock k hk
      rw [hword, mem_span_ofNat hlen (by omega) (by omega)] at hmem
      omega
  · rintro hend x hx
    obtain ⟨j, hj, rfl⟩ := mem_span_iff.mp hx
    have hfit : p + j < n * len := by omega
    have hk : (p + j) / len < n := (Nat.div_lt_iff_lt_mul hlen).mpr hfit
    have hroom := hblock _ hk
    refine ⟨(p + j) / len, hk, ?_⟩
    rw [hword, mem_span_ofNat hlen (by omega) (by omega)]
    exact ⟨Nat.div_mul_le_self _ _, Nat.lt_div_mul_add hlen⟩

end Consecutive

end Spans
