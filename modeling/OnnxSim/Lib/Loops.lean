import Mathlib.Data.List.Forall2

/-!
# Loops that may fail

A loop of partial steps is a `mapM` or a `foldlM` over `Option`. Where it comes to its end, each of its
steps did.
-/

namespace Loops

universe u v

variable {α : Type u} {β : Type v}

/-- The results of a loop, one for each turn. -/
theorem forall₂_of_mapM {f : α → Option β} {xs : List α} {ys : List β} (h : xs.mapM f = some ys) :
    List.Forall₂ (fun x y => f x = some y) xs ys := by
  induction xs generalizing ys with
  | nil =>
    obtain rfl : [] = ys := by simpa using h
    exact .nil
  | cons x xs ih =>
    rw [List.mapM_cons] at h
    obtain ⟨y, hy, h⟩ := Option.bind_eq_some_iff.mp h
    obtain ⟨ys', hys, h⟩ := Option.bind_eq_some_iff.mp h
    obtain rfl := Option.some.inj h
    exact .cons hy (ih hys)

/-- What is on one side of two related lists is related to what is on the other. -/
theorem exists_of_forall₂ {R : α → β → Prop} {xs : List α} {ys : List β}
    (h : List.Forall₂ R xs ys) {x : α} (hx : x ∈ xs) : ∃ y ∈ ys, R x y := by
  induction h with
  | nil => cases hx
  | cons hxy _ ih =>
    rcases List.mem_cons.mp hx with rfl | hx
    · exact ⟨_, List.mem_cons_self, hxy⟩
    · obtain ⟨y, hy, hxy⟩ := ih hx
      exact ⟨y, List.mem_cons_of_mem _ hy, hxy⟩

theorem exists_of_forall₂_right {R : α → β → Prop} {xs : List α} {ys : List β}
    (h : List.Forall₂ R xs ys) {y : β} (hy : y ∈ ys) : ∃ x ∈ xs, R x y :=
  exists_of_forall₂ (R := fun y x => R x y) h.flip hy

theorem map_eq_of_forall₂ {γ : Type u} {R : α → β → Prop} {xs : List α} {ys : List β}
    (h : List.Forall₂ R xs ys) {f : α → γ} {g : β → γ} (hfg : ∀ x ∈ xs, ∀ y, R x y → g y = f x) :
    ys.map g = xs.map f := by
  induction h with
  | nil => rfl
  | cons hxy _ ih =>
    rw [List.map_cons, List.map_cons, hfg _ List.mem_cons_self _ hxy,
      ih fun x hx => hfg x (List.mem_cons_of_mem _ hx)]

/-- Each result comes from a turn of the loop. -/
theorem exists_of_mem {f : α → Option β} {xs : List α} {ys : List β} (h : xs.mapM f = some ys)
    {y : β} (hy : y ∈ ys) : ∃ x ∈ xs, f x = some y :=
  exists_of_forall₂_right (forall₂_of_mapM h) hy

/-- The results are those of the turns. -/
theorem mem_iff_of_mapM {f : α → Option β} {xs : List α} {ys : List β} (h : xs.mapM f = some ys)
    {y : β} : y ∈ ys ↔ ∃ x ∈ xs, f x = some y := by
  refine ⟨exists_of_mem h, ?_⟩
  rintro ⟨x, hx, hxy⟩
  obtain ⟨y', hy', hxy'⟩ := exists_of_forall₂ (forall₂_of_mapM h) hx
  obtain rfl := Option.some.inj (hxy.symm.trans hxy')
  exact hy'

/-- A loop whose turns have the results `g`. -/
theorem mapM_eq_map {f : α → Option β} {g : α → β} {xs : List α} (h : ∀ x ∈ xs, f x = some (g x)) :
    xs.mapM f = some (xs.map g) := by
  induction xs with
  | nil => rfl
  | cons x xs ih =>
    rw [List.mapM_cons, h x List.mem_cons_self, ih fun y hy => h y (List.mem_cons_of_mem _ hy)]
    rfl

/-- A loop comes to its end if each of its turns does. -/
theorem exists_mapM {f : α → Option β} {xs : List α} (h : ∀ x ∈ xs, ∃ y, f x = some y) :
    ∃ ys, xs.mapM f = some ys := by
  induction xs with
  | nil => exact ⟨[], by simp⟩
  | cons x xs ih =>
    obtain ⟨y, hy⟩ := h x List.mem_cons_self
    obtain ⟨ys, hys⟩ := ih fun x hx => h x (List.mem_cons_of_mem _ hx)
    exact ⟨y :: ys, by rw [List.mapM_cons, hy, hys]; rfl⟩

/-- A loop comes to its end exactly if each of its turns does. -/
theorem exists_mapM_iff {f : α → Option β} {xs : List α} :
    (∃ ys, xs.mapM f = some ys) ↔ ∀ x ∈ xs, ∃ y, f x = some y := by
  refine ⟨?_, exists_mapM⟩
  rintro ⟨ys, h⟩ x hx
  obtain ⟨y, -, hxy⟩ := exists_of_forall₂ (forall₂_of_mapM h) hx
  exact ⟨y, hxy⟩

theorem exists_bind_some_iff {x : Option α} {g : α → β} :
    (∃ b, (x.bind fun a => some (g a)) = some b) ↔ ∃ a, x = some a := by
  simp [Option.bind_eq_some_iff]

/-- Two nested loops are one. -/
theorem mapM_flatMap {γ : Type v} {f : β → Option γ} {g : α → List β} {xs : List α} :
    (xs.flatMap g).mapM f = (xs.mapM fun x => (g x).mapM f).map List.flatten := by
  induction xs with
  | nil => rfl
  | cons x xs ih =>
    rw [List.flatMap_cons, List.mapM_append, ih, List.mapM_cons]
    cases (g x).mapM f with
    | none => rfl
    | some ys =>
      cases xs.mapM fun x => (g x).mapM f with
      | none => rfl
      | some zs => rfl

theorem exists_foldlM {f : β → α → Option β} {xs : List α}
    (h : ∀ b, ∀ x ∈ xs, ∃ b', f b x = some b') (b : β) : ∃ b', xs.foldlM f b = some b' := by
  induction xs generalizing b with
  | nil => exact ⟨b, rfl⟩
  | cons x xs ih =>
    obtain ⟨c, hc⟩ := h b x List.mem_cons_self
    obtain ⟨b', hb'⟩ := ih (fun b y hy => h b y (List.mem_cons_of_mem _ hy)) c
    exact ⟨b', by rw [List.foldlM_cons, hc]; exact hb'⟩

/-- What no turn of a loop spoils, the loop does not spoil. -/
theorem foldlM_induction {P : β → Prop} {f : β → α → Option β} {xs : List α} {b b' : β}
    (h : xs.foldlM f b = some b') (hb : P b)
    (hf : ∀ b, ∀ x ∈ xs, ∀ b', P b → f b x = some b' → P b') : P b' := by
  induction xs generalizing b with
  | nil =>
    obtain rfl := Option.some.inj h
    exact hb
  | cons x xs ih =>
    rw [List.foldlM_cons] at h
    obtain ⟨c, hc, h⟩ := Option.bind_eq_some_iff.mp h
    exact ih h (hf b x List.mem_cons_self c hb hc)
      fun b y hy => hf b y (List.mem_cons_of_mem _ hy)

/-- A loop comes to its end if each of its turns does from what the turns before leave. -/
theorem exists_foldlM_of {P : β → Prop} {f : β → α → Option β} {xs : List α}
    (hf : ∀ b, P b → ∀ x ∈ xs, ∃ b', f b x = some b' ∧ P b') {b : β} (hb : P b) :
    ∃ b', xs.foldlM f b = some b' ∧ P b' := by
  induction xs generalizing b with
  | nil => exact ⟨b, rfl, hb⟩
  | cons x xs ih =>
    obtain ⟨c, hc, hPc⟩ := hf b hb x List.mem_cons_self
    obtain ⟨b', hb', hPb'⟩ := ih (fun b hb y hy => hf b hb y (List.mem_cons_of_mem _ hy)) hPc
    exact ⟨b', by rw [List.foldlM_cons, hc]; exact hb', hPb'⟩

theorem filterAuxM_eq {α : Type} {p : α → Option Bool} {q : α → Bool} {xs : List α}
    (h : ∀ x ∈ xs, p x = some (q x)) (acc : List α) :
    xs.filterAuxM p acc = some ((xs.filter q).reverse ++ acc) := by
  induction xs generalizing acc with
  | nil => rfl
  | cons x xs ih =>
    have hrest := ih fun y hy => h y (List.mem_cons_of_mem _ hy)
    unfold List.filterAuxM
    rw [h x List.mem_cons_self]
    cases hx : q x with
    | false => simpa [hx] using hrest acc
    | true => simpa [hx] using hrest (x :: acc)

theorem mem_of_filterAuxM {α : Type} {p : α → Option Bool} {xs acc ys : List α}
    (h : xs.filterAuxM p acc = some ys) :
    (∀ x ∈ acc, x ∈ ys) ∧ ∀ x ∈ xs, p x = some true → x ∈ ys := by
  induction xs generalizing acc with
  | nil =>
    obtain rfl := Option.some.inj h
    exact ⟨fun _ hx => hx, fun _ hx => absurd hx List.not_mem_nil⟩
  | cons x xs ih =>
    unfold List.filterAuxM at h
    obtain ⟨b, hb, h⟩ := Option.bind_eq_some_iff.mp h
    obtain ⟨hacc, hxs⟩ := ih h
    cases b with
    | false =>
      refine ⟨hacc, fun y hy hpy => ?_⟩
      rcases List.mem_cons.mp hy with rfl | hy
      · rw [hb] at hpy
        cases hpy
      · exact hxs y hy hpy
    | true =>
      refine ⟨fun y hy => hacc y (List.mem_cons_of_mem _ hy), fun y hy hpy => ?_⟩
      rcases List.mem_cons.mp hy with rfl | hy
      · exact hacc y List.mem_cons_self
      · exact hxs y hy hpy

/-- What passes the test of a filter that comes to its end is left. -/
theorem mem_of_filterM {α : Type} {p : α → Option Bool} {xs ys : List α}
    (h : xs.filterM p = some ys) {x : α} (hx : x ∈ xs) (hpx : p x = some true) : x ∈ ys := by
  obtain ⟨zs, hzs, h⟩ := Option.bind_eq_some_iff.mp h
  obtain rfl := Option.some.inj h
  exact List.mem_reverse.mpr ((mem_of_filterAuxM hzs).2 x hx hpx)

/-- A filter all of whose tests come to an end. -/
theorem filterM_eq {α : Type} {p : α → Option Bool} {q : α → Bool} {xs : List α}
    (h : ∀ x ∈ xs, p x = some (q x)) : xs.filterM p = some (xs.filter q) := by
  unfold List.filterM
  rw [filterAuxM_eq h]
  simp

end Loops
