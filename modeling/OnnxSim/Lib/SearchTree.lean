import Mathlib.Data.List.Basic

/-!
# Lookups in a search tree

A map that knows its keys by an order `lt` alone keeps them in a search tree and looks a key up in one walk
to the first node that is not less (`lowerBound`). If `lt` is transitive, the walk finds the first entry
whose key is incomparable with the one looked up (`Sorted.find_eq`), whatever the shape of the tree. Whether
that is the right entry is up to the order: an incomparable key need not be an equal one.
-/

inductive SearchTree (κ ι : Type)
  | leaf
  | node (left : SearchTree κ ι) (key : κ) (item : ι) (right : SearchTree κ ι)

namespace SearchTree

variable {κ ι : Type} {lt : κ → κ → Bool} {key : κ} {t : SearchTree κ ι}

/-- The entries in the order of the tree. -/
def entries : SearchTree κ ι → List (κ × ι)
  | leaf => []
  | node left key item right => left.entries ++ (key, item) :: right.entries

/-- The last node at which the walk went left. -/
def lowerBound (lt : κ → κ → Bool) (key : κ) : SearchTree κ ι → Option (κ × ι) → Option (κ × ι)
  | leaf, best => best
  | node left k item right, best =>
    if lt k key then lowerBound lt key right best else lowerBound lt key left (some (k, item))

/-- The entry at the lower bound, unless `key` is less. -/
def find (lt : κ → κ → Bool) (key : κ) (t : SearchTree κ ι) : Option (κ × ι) :=
  (t.lowerBound lt key none).filter fun e => !lt key e.1

/-- The entries are in order. -/
def Sorted (lt : κ → κ → Bool) (t : SearchTree κ ι) : Prop :=
  t.entries.Pairwise fun e e' => lt e.1 e'.1

theorem Sorted.left {left right : SearchTree κ ι} {k : κ} {item : ι}
    (h : (node left k item right).Sorted lt) : left.Sorted lt :=
  (List.pairwise_append.mp h).1

theorem Sorted.right {left right : SearchTree κ ι} {k : κ} {item : ι}
    (h : (node left k item right).Sorted lt) : right.Sorted lt :=
  (List.pairwise_cons.mp (List.pairwise_append.mp h).2.1).2

theorem Sorted.left_lt {left right : SearchTree κ ι} {k : κ} {item : ι}
    (h : (node left k item right).Sorted lt) : ∀ e ∈ left.entries, lt e.1 k :=
  fun e he => (List.pairwise_append.mp h).2.2 e he (k, item) List.mem_cons_self

/-- The walk ends at the first entry that is not less than `key`. -/
theorem Sorted.lowerBound_eq (htrans : ∀ a b c, lt a b → lt b c → lt a c) (h : t.Sorted lt)
    (best : Option (κ × ι)) :
    t.lowerBound lt key best = (t.entries.find? fun e => !lt e.1 key).or best := by
  induction t generalizing best with
  | leaf => rfl
  | node left k item right ihl ihr =>
    unfold lowerBound entries
    rw [List.find?_append]
    split
    · next hless =>
      have hleft : (left.entries.find? fun e => !lt e.1 key) = none := by
        rw [List.find?_eq_none]
        intro e he
        simpa using htrans _ _ _ (h.left_lt e he) hless
      rw [ihr h.right, hleft, Option.none_or, List.find?_cons_of_neg (by simpa using hless)]
    · next hnot =>
      rw [ihl h.left, List.find?_cons_of_pos (by simpa using hnot), Option.or_assoc]
      rfl

/-- Behind the first entry that is not less, and greater, all are greater. -/
theorem filter_find?_eq (htrans : ∀ a b c, lt a b → lt b c → lt a c) {l : List (κ × ι)}
    (h : l.Pairwise fun e e' => lt e.1 e'.1) :
    ((l.find? fun e => !lt e.1 key).filter fun e => !lt key e.1) =
      l.find? fun e => !lt e.1 key && !lt key e.1 := by
  induction l with
  | nil => rfl
  | cons e rest ih =>
    have hrest := List.pairwise_cons.mp h
    by_cases hless : lt e.1 key = true
    · rw [List.find?_cons_of_neg (by simpa using hless), List.find?_cons_of_neg (by simp [hless])]
      exact ih hrest.2
    rw [List.find?_cons_of_pos (by simpa using hless)]
    by_cases hgreater : lt key e.1 = true
    · have hnone : ((e :: rest).find? fun e => !lt e.1 key && !lt key e.1) = none := by
        rw [List.find?_eq_none]
        intro x hx
        rcases List.mem_cons.mp hx with rfl | hx
        · simp [hgreater]
        · simp [htrans _ _ _ hgreater (hrest.1 x hx)]
      rw [hnone]
      simp [hgreater]
    · rw [List.find?_cons_of_pos (by simp [hless, hgreater])]
      simp [hgreater]

/-- A lookup finds the first entry that is neither less than `key` nor greater. -/
theorem Sorted.find_eq (htrans : ∀ a b c, lt a b → lt b c → lt a c) (h : t.Sorted lt) :
    t.find lt key = t.entries.find? fun e => !lt e.1 key && !lt key e.1 := by
  unfold find
  rw [h.lowerBound_eq htrans, Option.or_none]
  exact filter_find?_eq htrans h

end SearchTree
