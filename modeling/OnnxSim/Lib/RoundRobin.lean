import Mathlib.Data.Nat.ModEq
import Mathlib.Data.List.Range

/-!
# Round robin

An arbiter with a pointer among `n` requesters serves the first one that is ready, from the pointer on, and
leaves the pointer behind it. A requester that is ready and is not served comes closer to the pointer
(`distance_decreases`), so it is served within `n` rounds.
-/

namespace RoundRobin

variable {n p x w : Nat} {ready : Nat → Bool}

/-- The requester that is served. -/
def pick (n : Nat) (ready : Nat → Bool) (p : Nat) : Option Nat :=
  ((List.range n).map fun i => (p + i) % n).find? ready

/-- How far the pointer is from requester `x`. -/
def distance (n p x : Nat) : Nat := (x + (n - p % n)) % n

theorem distance_lt (hn : 0 < n) (p x : Nat) : distance n p x < n := Nat.mod_lt _ hn

/-- The pointer comes to `x` after its distance. -/
theorem add_distance (hx : x < n) (p : Nat) : (p + distance n p x) % n = x := by
  have hlt : p % n < n := Nat.mod_lt _ (by omega)
  unfold distance
  rw [Nat.add_mod_mod, Nat.add_mod]
  have hsum : p % n + (x + (n - p % n)) = x + n := by omega
  rw [← Nat.add_mod, ← Nat.mod_add_mod, hsum, Nat.add_mod_right, Nat.mod_eq_of_lt hx]

theorem distance_eq {k : Nat} (hk : k < n) (hx : (p + k) % n = x) : distance n p x = k := by
  have hxn : x < n := hx ▸ Nat.mod_lt _ (by omega)
  have hmod : (p + distance n p x) % n = (p + k) % n := (add_distance hxn p).trans hx.symm
  have hcancel : distance n p x ≡ k [MOD n] := Nat.ModEq.add_left_cancel' p hmod
  exact hcancel.eq_of_lt_of_lt (distance_lt (by omega) p x) hk

theorem pick_eq_some : pick n ready p = some w ↔
    ∃ i < n, (p + i) % n = w ∧ ready w = true ∧ ∀ j < i, ready ((p + j) % n) = false := by
  unfold pick
  rw [List.find?_map, Option.map_eq_some_iff]
  constructor
  · rintro ⟨i, hi, rfl⟩
    obtain ⟨hready, hmem, hfirst⟩ := List.find?_range_eq_some.mp hi
    exact ⟨i, List.mem_range.mp hmem, rfl, hready, fun j hj => by simpa using hfirst j hj⟩
  · rintro ⟨i, hi, rfl, hready, hfirst⟩
    exact ⟨i, List.find?_range_eq_some.mpr
      ⟨hready, List.mem_range.mpr hi, fun j hj => by simpa using hfirst j hj⟩, rfl⟩

/-- A requester that is ready and is not served comes closer. -/
theorem distance_decreases (hx : x < n) (hready : ready x = true) (hw : pick n ready p = some w)
    (hne : w ≠ x) : distance n ((w + 1) % n) x < distance n p x := by
  obtain ⟨i, hi, rfl, -, hfirst⟩ := pick_eq_some.mp hw
  have hdist := distance_lt (show 0 < n by omega) p x
  have hadd := add_distance hx p
  have hle : i < distance n p x := by
    rcases Nat.lt_trichotomy i (distance n p x) with hlt | heq | hgt
    · exact hlt
    · exact absurd (heq ▸ hadd) hne
    · have hnot := hfirst _ hgt
      rw [hadd, hready] at hnot
      cases hnot
  have hnext : distance n (((p + i) % n + 1) % n) x = distance n p x - i - 1 := by
    refine distance_eq (by omega) ?_
    rw [Nat.mod_add_mod, Nat.add_assoc, Nat.mod_add_mod]
    have hsum : p + i + (1 + (distance n p x - i - 1)) = p + distance n p x := by omega
    rw [hsum, hadd]
  omega

theorem pick_isSome (hx : x < n) (hready : ready x = true) : (pick n ready p).isSome := by
  unfold pick
  rw [List.find?_isSome]
  exact ⟨x, List.mem_map.mpr ⟨distance n p x, List.mem_range.mpr (distance_lt (by omega) p x),
    add_distance hx p⟩, hready⟩

end RoundRobin
