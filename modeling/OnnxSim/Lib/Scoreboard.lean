import Mathlib.Data.List.Count
import Mathlib.Data.List.Perm.Basic
import Mathlib.Logic.Function.Basic

/-!
# Scoreboards

A scoreboard is a table of entries, each of which waits for a number of fills and is valid when it has
had them. Fills are outstanding somewhere else, in any order. `Counted` says that the two agree: what
an entry waits for is what is outstanding for it, and nothing is outstanding for a key without an
entry. So a fill that arrives finds an entry that waits for it (`Counted.waits`), and a valid entry is
waiting for nothing (`Counted.not_mem`).
-/

namespace Scoreboard

universe u v

variable {κ : Type u} {ε : Type v} [DecidableEq κ] (valid : ε → Bool) (remain : ε → Nat)

/-- Every entry waits for the fills that are outstanding for its key. -/
def Counted (table : κ → Option ε) (out : List κ) : Prop :=
  ∀ k, match table k with
    | none => out.count k = 0
    | some e => remain e = out.count k ∧ (valid e → remain e = 0)

variable {valid remain} {table : κ → Option ε} {out out' : List κ} {k : κ} {e e' : ε}

/-- Before anything is allocated. -/
theorem counted_nil (h : ∀ k, table k = none) : Counted valid remain table [] := by
  intro k
  rw [h k]
  exact List.count_nil

theorem Counted.of_some (h : Counted valid remain table out) (hk : table k = some e) :
    remain e = out.count k ∧ (valid e → remain e = 0) := by
  have hentry := h k
  rw [hk] at hentry
  exact hentry

theorem Counted.of_none (h : Counted valid remain table out) (hk : table k = none) : k ∉ out := by
  have hentry := h k
  rw [hk] at hentry
  exact List.count_eq_zero.mp hentry

/-- An outstanding fill has an entry that waits for it. -/
theorem Counted.waits (h : Counted valid remain table out) (hk : k ∈ out) :
    ∃ e, table k = some e ∧ valid e = false ∧ 0 < remain e := by
  cases hentry : table k with
  | none => exact absurd hk (h.of_none hentry)
  | some e =>
    obtain ⟨hremain, hvalid⟩ := h.of_some hentry
    have hpos := List.count_pos_iff.mpr hk
    refine ⟨e, rfl, ?_, by omega⟩
    rw [Bool.eq_false_iff]
    intro hv
    have := hvalid hv
    omega

theorem Counted.not_mem (h : Counted valid remain table out) (hk : table k = some e)
    (hvalid : valid e) : k ∉ out := by
  obtain ⟨hremain, hzero⟩ := h.of_some hk
  exact List.count_eq_zero.mp (hremain ▸ hzero hvalid)

theorem Counted.perm (h : Counted valid remain table out) (hout : out.Perm out') :
    Counted valid remain table out' := by
  intro k
  have hentry := h k
  rwa [hout.count_eq k] at hentry

/-- The entry at one key changes together with what is outstanding for it. -/
theorem Counted.update (h : Counted valid remain table out)
    (hother : ∀ j, j ≠ k → out'.count j = out.count j)
    (hremain : remain e' = out'.count k) (hvalid : valid e' → remain e' = 0) :
    Counted valid remain (Function.update table k (some e')) out' := by
  intro j
  by_cases hj : j = k
  · subst hj
    rw [Function.update_self]
    exact ⟨hremain, hvalid⟩
  · rw [Function.update_of_ne hj, hother j hj]
    exact h j

/-- A fill arrives. -/
theorem Counted.fill (h : Counted valid remain table out) (hk : table k = some e)
    (hout : out.Perm (k :: out')) (hremain : remain e' = remain e - 1)
    (hvalid : valid e' → remain e' = 0) :
    Counted valid remain (Function.update table k (some e')) out' := by
  refine h.update (fun j hj => ?_) ?_ hvalid
  · rw [hout.count_eq, List.count_cons_of_ne (Ne.symm hj)]
  · have hcount := (h.of_some hk).1
    rw [hout.count_eq, List.count_cons_self] at hcount
    omega

/-- One more fill is outstanding for an entry. -/
theorem Counted.countUp (h : Counted valid remain table out) (hk : table k = some e)
    (hremain : remain e' = remain e + 1) (hvalid : ¬ valid e') :
    Counted valid remain (Function.update table k (some e')) (k :: out) := by
  refine h.update (fun j hj => List.count_cons_of_ne (Ne.symm hj)) ?_ fun hv => absurd hv hvalid
  rw [hremain, (h.of_some hk).1, List.count_cons_self]

/-- A new entry waits for `n` fills. -/
theorem Counted.allocate {n : Nat} (h : Counted valid remain table out) (hk : table k = none)
    (hremain : remain e = n) (hvalid : ¬ valid e) :
    Counted valid remain (Function.update table k (some e)) (List.replicate n k ++ out) := by
  refine h.update (fun j hj => ?_) ?_ fun hv => absurd hv hvalid
  · rw [List.count_append, List.count_replicate, if_neg (by simpa using Ne.symm hj), Nat.zero_add]
  · rw [List.count_append, List.count_replicate_self, List.count_eq_zero.mpr (h.of_none hk), hremain,
      Nat.add_zero]

/-- Entries leave the table for which nothing is outstanding. -/
theorem Counted.flush {table' : κ → Option ε} (h : Counted valid remain table out)
    (hflush : ∀ k, table' k = table k ∨ table' k = none ∧ k ∉ out) :
    Counted valid remain table' out := by
  intro k
  rcases hflush k with hk | ⟨hk, hnot⟩
  · rw [hk]
    exact h k
  · rw [hk]
    exact List.count_eq_zero.mpr hnot

end Scoreboard
