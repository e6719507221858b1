import OnnxSim.Lib.Chunks
import OnnxSim.Lib.Spans

/-!
# Strips of words

A strip is a row of `n` words from a base on. It is cut into tiles of `t` words, and each tile is sampled
from its start on at every `e`-th word. The words that are sampled are at the places `Place n t e`: those
whose remainder in their tile is a multiple of `e`. Their last one decides whether the samples stay inside
a span of words (`forall_place_iff`), and where `e` divides `t` they are the multiples of `e`
(`place_iff_dvd`).
-/

namespace Strips

variable {n t e m : Nat}

/-- The strip is sampled at `m`. -/
def Place (n t e m : Nat) : Prop := m < n ∧ e ∣ m % t

/-- The last place of a strip that is not empty. -/
def last (n t e : Nat) : Nat := (n - 1) / t * t + (n - 1) % t / e * e

theorem Place.le_last (ht : 0 < t) (h : Place n t e m) : m ≤ last n t e :=
  Chunks.le_last_place ht h.1 h.2

theorem last_lt (hn : 0 < n) : last n t e < n := by
  have hfloor := Nat.div_mul_le_self ((n - 1) % t) e
  have hsum := Nat.div_add_mod' (n - 1) t
  unfold last
  omega

theorem place_last (hn : 0 < n) (ht : 0 < t) : Place n t e (last n t e) := by
  have hfloor := Nat.div_mul_le_self ((n - 1) % t) e
  have hmod := Nat.mod_lt (n - 1) ht
  refine ⟨last_lt hn, ?_⟩
  unfold last
  rw [Nat.mul_add_mod', Nat.mod_eq_of_lt (by omega)]
  exact Nat.dvd_mul_left _ _

/-- The places are the samples of the tiles. -/
theorem place_iff_tile (ht : 0 < t) : Place n t e m ↔
    ∃ i, i * t < n ∧ ∃ j, j * e < min (n - i * t) t ∧ m = i * t + j * e := by
  constructor
  · rintro ⟨hm, hdvd⟩
    have hsum := Nat.div_add_mod' m t
    have hmod := Nat.mod_lt m ht
    obtain ⟨j, hj⟩ := hdvd
    rw [Nat.mul_comm] at hj
    exact ⟨m / t, by omega, j, by omega, by omega⟩
  · rintro ⟨i, hi, j, hj, rfl⟩
    refine ⟨by omega, ?_⟩
    rw [Nat.mul_add_mod', Nat.mod_eq_of_lt (by omega)]
    exact Nat.dvd_mul_left _ _

/-- In tiles of whole samples the places are the multiples of the sample. -/
theorem place_iff_dvd (h : e ∣ t) : Place n t e m ↔ m < n ∧ e ∣ m :=
  and_congr_right fun _ => Nat.dvd_mod_iff h

/-- So they are in a single tile. -/
theorem place_iff_dvd_of_le (h : n ≤ t) : Place n t e m ↔ m < n ∧ e ∣ m :=
  and_congr_right fun hm => by rw [Nat.mod_eq_of_lt (by omega)]

/-- The samples stay inside a span exactly if there are none or the last one does. -/
theorem forall_place_iff {w size : Nat} {base a : BitVec w} (ht : 0 < t) (hfit : size + n ≤ 2 ^ w) :
    (∀ m, Place n t e m → base + BitVec.ofNat w m ∈ Spans.Span a size) ↔
      n = 0 ∨ (base - a).toNat + last n t e < size := by
  -- while nothing wraps, a sample is as far from the start of the span as the base and the place say
  have hplace : ∀ m < n, (base - a).toNat < size →
      (base + BitVec.ofNat w m - a).toNat = (base - a).toNat + m := by
    intro m hm hin
    have hsplit : base + BitVec.ofNat w m - a = base - a + BitVec.ofNat w m := by
      rw [add_sub_right_comm]
    rw [hsplit, BitVec.toNat_add, BitVec.toNat_ofNat, Nat.mod_eq_of_lt (a := m) (by omega)]
    exact Nat.mod_eq_of_lt (by omega)
  constructor
  · intro hall
    refine or_iff_not_imp_left.mpr fun hn => ?_
    have hpos : 0 < n := Nat.pos_of_ne_zero hn
    have hlast := place_last (e := e) hpos ht
    have hfirst : (base - a).toNat < size := by
      have hzero : Place n t e 0 := ⟨hpos, by rw [Nat.zero_mod]; exact Nat.dvd_zero e⟩
      have hin : (base + BitVec.ofNat w 0 - a).toNat < size := hall 0 hzero
      rwa [BitVec.add_zero] at hin
    have hin : (base + BitVec.ofNat w (last n t e) - a).toNat < size := hall _ hlast
    rwa [hplace _ hlast.1 hfirst] at hin
  · rintro (rfl | hend) m hm
    · exact absurd hm.1 (Nat.not_lt_zero m)
    · have hle := hm.le_last ht
      show (base + BitVec.ofNat w m - a).toNat < size
      rw [hplace m hm.1 (by omega)]
      omega

end Strips
