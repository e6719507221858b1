import Mathlib.Data.List.Nodup
import Mathlib.Data.List.GetD

/-!
# Removal by swapping with the last element

A dense array of keys with a stored position for each key supports removal in constant time: the
last key is moved into the hole and the array is shortened. `swapRemove` is that operation on a
list, and the lemmas say which keys remain and where they are found afterwards.
-/

namespace SwapRemove

universe u

variable {α : Type u}

/-- `l[i] = l.back(); l.pop_back()`. -/
def swapRemove (l : List α) (i : Nat) (d : α) : List α := (l.set i (l.getLastD d)).dropLast

@[simp] theorem length_swapRemove (l : List α) (i : Nat) (d : α) :
    (swapRemove l i d).length = l.length - 1 := by
  simp [swapRemove]

/-- The position of the hole holds the former last key, the positions before the end are kept. -/
theorem getElem?_swapRemove {l : List α} {i : Nat} (d : α) (hi : i < l.length) (j : Nat) :
    (swapRemove l i d)[j]? =
      if j + 1 < l.length then if j = i then l.getLast? else l[j]? else none := by
  have hlast : l.getLast? = some (l.getLastD d) := by
    cases l with
    | nil => simp at hi
    | cons a l => simp [List.getLast?_eq_getLast_of_ne_nil, List.getLastD]
  rw [swapRemove, List.getElem?_dropLast, List.length_set, hlast]
  by_cases hj : j + 1 < l.length
  · rw [if_pos hj, if_pos (by omega), List.getElem?_set]
    by_cases hji : i = j
    · rw [if_pos hji, if_pos hi, if_pos hji.symm]
    · rw [if_neg hji, if_neg (fun h => hji h.symm)]
  · rw [if_neg hj, if_neg (by omega)]

/-- The key in the hole is the one that leaves. -/
theorem mem_swapRemove {l : List α} {i : Nat} {x : α} (d : α) (hl : l.Nodup)
    (hx : l[i]? = some x) {y : α} : y ∈ swapRemove l i d ↔ y ∈ l ∧ y ≠ x := by
  obtain ⟨hi, hxi⟩ := List.getElem?_eq_some_iff.mp hx
  have hinj : ∀ {j k : Nat} {z : α}, l[j]? = some z → l[k]? = some z → j = k := by
    intro j k z hj hk
    obtain ⟨hj', hjz⟩ := List.getElem?_eq_some_iff.mp hj
    obtain ⟨hk', hkz⟩ := List.getElem?_eq_some_iff.mp hk
    exact (hl.getElem_inj_iff).mp (hjz.trans hkz.symm)
  have hback : l.getLast? = l[l.length - 1]? := List.getLast?_eq_getElem?
  rw [List.mem_iff_getElem?, List.mem_iff_getElem?]
  constructor
  · intro ⟨j, hj⟩
    rw [getElem?_swapRemove d hi] at hj
    split at hj
    · rename_i hjl
      split at hj
      · rw [hback] at hj
        refine ⟨⟨_, hj⟩, fun heq => ?_⟩
        subst heq
        have := hinj hj hx
        omega
      · rename_i hji
        refine ⟨⟨_, hj⟩, fun heq => ?_⟩
        subst heq
        exact hji (hinj hj hx)
    · cases hj
  · intro ⟨⟨j, hj⟩, hne⟩
    have hjl : j < l.length := (List.getElem?_eq_some_iff.mp hj).1
    have hji : j ≠ i := by
      intro heq
      subst heq
      exact hne (Option.some.inj (hj.symm.trans hx))
    by_cases hend : j + 1 < l.length
    · exact ⟨j, by rw [getElem?_swapRemove d hi, if_pos hend, if_neg hji, hj]⟩
    · have hlast : j = l.length - 1 := by omega
      exact ⟨i, by rw [getElem?_swapRemove d hi, if_pos (by omega), if_pos rfl, hback, ← hlast, hj]⟩

theorem nodup_swapRemove {l : List α} {i : Nat} {x : α} (d : α) (hl : l.Nodup)
    (hx : l[i]? = some x) : (swapRemove l i d).Nodup := by
  obtain ⟨hi, hxi⟩ := List.getElem?_eq_some_iff.mp hx
  have hback : l.getLast? = l[l.length - 1]? := List.getLast?_eq_getElem?
  rw [List.nodup_iff_getElem?_ne_getElem?]
  intro j k hjk hk heq
  rw [length_swapRemove] at hk
  rw [getElem?_swapRemove d hi, getElem?_swapRemove d hi, if_pos (show j + 1 < l.length by omega),
    if_pos (show k + 1 < l.length by omega), hback] at heq
  have hne := List.nodup_iff_getElem?_ne_getElem?.mp hl
  split at heq <;> split at heq
  · omega
  · exact hne k (l.length - 1) (by omega) (by omega) heq.symm
  · exact hne j (l.length - 1) (by omega) (by omega) heq
  · exact hne j k hjk (by omega) heq

end SwapRemove
