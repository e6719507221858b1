import Mathlib.Data.List.Forall2

/-!
# First in, first out

What has entered a queue, what has left it and what it holds: `Fifo R Q entered left inside` says
that the entries leave in the order they came, that each departure stands to its entry in `R` and
that each waiting item stands to its entry in `Q`. With equality of the payloads for both this is
the plain queue; with bounds between time stamps it says how long entries stay.
-/

namespace Queues

universe u v w

variable {α : Type u} {β : Type v} {γ : Type w}

/-- The entries that have left come first, the waiting ones after them. -/
def Fifo (R : α → β → Prop) (Q : α → γ → Prop) (entered : List α) (left : List β)
    (inside : List γ) : Prop :=
  ∃ gone waiting, entered = gone ++ waiting ∧ List.Forall₂ R gone left ∧
    List.Forall₂ Q waiting inside

namespace Fifo

variable {R : α → β → Prop} {Q : α → γ → Prop} {entered : List α} {left : List β} {inside : List γ}

theorem nil : Fifo R Q [] [] [] := ⟨[], [], rfl, .nil, .nil⟩

/-- Entering at the back. -/
theorem enter (h : Fifo R Q entered left inside) {a : α} {c : γ} (hc : Q a c) :
    Fifo R Q (entered ++ [a]) left (inside ++ [c]) := by
  obtain ⟨gone, waiting, rfl, hgone, hwaiting⟩ := h
  have hlast : List.Forall₂ Q (waiting ++ [a]) (inside ++ [c]) :=
    List.rel_append hwaiting (.cons hc .nil)
  exact ⟨gone, waiting ++ [a], List.append_assoc .., hgone, hlast⟩

/-- Leaving at the front. -/
theorem leave {b : β} {c : γ} (h : Fifo R Q entered left (c :: inside))
    (hb : ∀ a, Q a c → R a b) : Fifo R Q entered (left ++ [b]) inside := by
  obtain ⟨gone, waiting, rfl, hgone, hwaiting⟩ := h
  cases hwaiting with
  | cons hc hrest =>
    rename_i a rest
    have hleft : List.Forall₂ R (gone ++ [a]) (left ++ [b]) :=
      List.rel_append hgone (.cons (hb a hc) .nil)
    exact ⟨gone ++ [a], rest, by simp, hleft, hrest⟩

theorem map_eq_of_forall₂ {δ : Type*} {f : α → δ} {g : β → δ} {as : List α} {bs : List β}
    (hR : ∀ a b, R a b → f a = g b) (h : List.Forall₂ R as bs) : as.map f = bs.map g := by
  induction h with
  | nil => rfl
  | cons hab _ ih => simp only [List.map_cons, hR _ _ hab, ih]

/-- The entries, in their order, are the departures and then what waits. -/
theorem map_eq {δ : Type*} {f : α → δ} {g : β → δ} {k : γ → δ} (h : Fifo R Q entered left inside)
    (hR : ∀ a b, R a b → f a = g b) (hQ : ∀ a c, Q a c → f a = k c) :
    entered.map f = left.map g ++ inside.map k := by
  obtain ⟨gone, waiting, rfl, hgone, hwaiting⟩ := h
  rw [List.map_append, map_eq_of_forall₂ hR hgone, map_eq_of_forall₂ hQ hwaiting]

/-- The `k`-th departure is that of the `k`-th entry. -/
theorem getElem?_left (h : Fifo R Q entered left inside) {k : Nat} {b : β} (hb : left[k]? = some b) :
    ∃ a, entered[k]? = some a ∧ R a b := by
  obtain ⟨gone, waiting, rfl, hgone, -⟩ := h
  have hlen := hgone.length_eq
  obtain ⟨hk, rfl⟩ := List.getElem?_eq_some_iff.mp hb
  have hk' : k < gone.length := by omega
  refine ⟨gone[k], ?_, hgone.get hk' hk⟩
  rw [List.getElem?_append_left hk', List.getElem?_eq_getElem hk']

end Fifo

end Queues
