import Mathlib.Data.List.Perm.Basic
import Mathlib.Logic.Function.Basic

/-!
# Custody

Parties that make items and want each of them back. An item waits in the queue of its owner, flies
in a common medium, or has been consumed. The books are balanced when everything a party has made is
in one of its own three places: in its queue, among its flying items, or among the items it has
consumed itself. Making, sending, receiving and any reordering of the medium keep the balance.
-/

namespace Custody

universe u

variable {α : Type u} {owner : α → Nat} {created queued consumed : Nat → List α}
  {flying flying' : List α} {i : Nat} {x : α}

structure Balanced (owner : α → Nat) (created queued consumed : Nat → List α) (flying : List α) :
    Prop where
  own : ∀ i, ∀ x ∈ queued i, owner x = i
  balance : ∀ i, (created i).Perm (queued i ++ flying.filter (owner · == i) ++ consumed i)

namespace Balanced

theorem nil : Balanced owner (fun _ => []) (fun _ => []) (fun _ => []) [] :=
  ⟨by simp, by simp⟩

/-- The medium may reorder what it holds. -/
theorem reorder (h : Balanced owner created queued consumed flying) (hperm : flying'.Perm flying) :
    Balanced owner created queued consumed flying' where
  own := h.own
  balance := fun i =>
    (h.balance i).trans (((hperm.symm.filter _).append_left _).append_right _)

theorem create {new : List α} (h : Balanced owner created queued consumed flying)
    (hnew : ∀ x ∈ new, owner x = i) :
    Balanced owner (Function.update created i (created i ++ new))
      (Function.update queued i (queued i ++ new)) consumed flying where
  own := by
    intro j x hx
    by_cases hj : j = i
    · subst hj
      rw [Function.update_self, List.mem_append] at hx
      exact hx.elim (h.own j x) (hnew x)
    · rw [Function.update_of_ne hj] at hx
      exact h.own j x hx
  balance := by
    intro j
    by_cases hj : j = i
    · subst hj
      rw [Function.update_self, Function.update_self]
      have hback := (h.balance j).append_right new
      refine hback.trans ?_
      rw [List.append_assoc, List.append_assoc, List.append_assoc, List.append_assoc]
      refine .append_left _ ?_
      rw [← List.append_assoc, ← List.append_assoc]
      exact List.perm_append_comm.trans (by rw [List.append_assoc])
    · rw [Function.update_of_ne hj, Function.update_of_ne hj]
      exact h.balance j

theorem send {rest : List α} (h : Balanced owner created queued consumed flying)
    (hqueue : queued i = x :: rest) (hfly : flying'.Perm (x :: flying)) :
    Balanced owner created (Function.update queued i rest) consumed flying' where
  own := by
    intro j y hy
    by_cases hj : j = i
    · subst hj
      rw [Function.update_self] at hy
      exact h.own j y (hqueue ▸ List.mem_cons_of_mem _ hy)
    · rw [Function.update_of_ne hj] at hy
      exact h.own j y hy
  balance := by
    intro j
    have howner : owner x = i := h.own i x (hqueue ▸ List.mem_cons_self)
    have hfilter := hfly.symm.filter (owner · == j)
    by_cases hj : j = i
    · subst hj
      rw [List.filter_cons_of_pos (by simpa using howner)] at hfilter
      have hbalance := h.balance j
      rw [hqueue] at hbalance
      rw [Function.update_self]
      refine hbalance.trans (.append_right _ ?_)
      exact List.perm_middle.symm.trans (hfilter.append_left rest)
    · rw [List.filter_cons_of_neg (by simpa [howner] using Ne.symm hj)] at hfilter
      rw [Function.update_of_ne hj]
      exact (h.balance j).trans ((hfilter.append_left _).append_right _)

theorem receive (h : Balanced owner created queued consumed flying)
    (howner : owner x = i) (hfly : flying.Perm (x :: flying')) :
    Balanced owner created queued (Function.update consumed i (consumed i ++ [x])) flying' where
  own := h.own
  balance := by
    intro j
    have hfilter := hfly.filter (owner · == j)
    by_cases hj : j = i
    · subst hj
      rw [List.filter_cons_of_pos (by simpa using howner)] at hfilter
      rw [Function.update_self]
      refine (h.balance j).trans ?_
      rw [List.append_assoc, List.append_assoc]
      refine .append_left _ ((hfilter.append_right _).trans ?_)
      rw [← List.append_assoc]
      exact (List.perm_append_singleton _ _).symm
    · rw [List.filter_cons_of_neg (by simpa [howner] using Ne.symm hj)] at hfilter
      rw [Function.update_of_ne hj]
      exact (h.balance j).trans ((hfilter.append_left _).append_right _)

/-- The items a party has made and not yet consumed are those in its queue and those that fly. -/
theorem countP_eq (h : Balanced owner created queued consumed flying) (p : α → Bool) (i : Nat) :
    (created i).countP p =
      (queued i).countP p + (flying.filter (owner · == i)).countP p + (consumed i).countP p := by
  rw [(h.balance i).countP_eq, List.countP_append, List.countP_append]

end Balanced

end Custody
