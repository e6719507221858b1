import Mathlib.Logic.Relation
import Mathlib.Data.List.Basic
import Mathlib.Data.List.Induction

/-!
# Labelled machines and their runs

A machine is a step relation `Step s a t`. A run keeps its history: the state before each step,
paired with the action taken there. Safety statements are about all states of a run
(`Run.Always`), run conditions about all its steps (`Run.EachStep`).

Three rules carry every run-level proof of a development over such a machine: an invariant holds
along every run (`Run.invariant`), an invariant preserved by the steps that meet a condition holds
along every run whose steps meet it (`Run.always_of_eachStep`), and where each single step keeps a
property exactly when it meets a condition, the runs that keep the property throughout are exactly
the runs whose steps all meet the condition (`Run.always_iff_eachStep`).
-/

namespace Machine

universe u v

variable {σ : Type u} {α : Type v}

/-- `Run Step s h t`: from `s` the machine reaches `t`, and `h` lists the state before each step
together with the action of the step. -/
inductive Run (Step : σ → α → σ → Prop) (s : σ) : List (σ × α) → σ → Prop
  | nil : Run Step s [] s
  | snoc {h : List (σ × α)} {t : σ} {a : α} {u : σ} (run : Run Step s h t) (step : Step t a u) :
      Run Step s (h ++ [(t, a)]) u

/-- The step relation of a function that always succeeds. -/
def det (f : σ → α → σ) : σ → α → σ → Prop := fun s a t => t = f s a

/-- The step relation of a function that may get stuck. -/
def partialDet (f : σ → α → Option σ) : σ → α → σ → Prop := fun s a t => f s a = some t

/-- Every state of the run with history `h` and last state `t` satisfies `P`. -/
def Always (P : σ → Prop) (h : List (σ × α)) (t : σ) : Prop :=
  (∀ p ∈ h, P p.1) ∧ P t

/-- Every step of the history satisfies `C`, a condition on the state before it and its action. -/
def EachStep (C : σ → α → Prop) (h : List (σ × α)) : Prop :=
  ∀ p ∈ h, C p.1 p.2

theorem EachStep.snoc_iff {C : σ → α → Prop} {h : List (σ × α)} {t : σ} {a : α} :
    EachStep C (h ++ [(t, a)]) ↔ EachStep C h ∧ C t a := by
  unfold EachStep
  constructor
  · intro hall
    exact ⟨fun p hp => hall p (List.mem_append_left _ hp), hall (t, a) (by simp)⟩
  · rintro ⟨hh, ha⟩ p hp
    rcases List.mem_append.mp hp with hp | hp
    · exact hh p hp
    · obtain rfl := List.mem_singleton.mp hp
      exact ha

theorem Always.snoc_iff {P : σ → Prop} {h : List (σ × α)} {t u : σ} {a : α} :
    Always P (h ++ [(t, a)]) u ↔ Always P h t ∧ P u := by
  unfold Always
  constructor
  · rintro ⟨hh, hu⟩
    exact ⟨⟨fun p hp => hh p (List.mem_append_left _ hp), hh (t, a) (by simp)⟩, hu⟩
  · rintro ⟨⟨hh, ht⟩, hu⟩
    refine ⟨fun p hp => ?_, hu⟩
    rcases List.mem_append.mp hp with hp | hp
    · exact hh p hp
    · obtain rfl := List.mem_singleton.mp hp
      exact ht

namespace Run

variable {Step : σ → α → σ → Prop} {s : σ}

/-- One step is a run. -/
theorem one {a : α} {t : σ} (step : Step s a t) : Run Step s [(s, a)] t := by
  have start : Run Step s [] s := .nil
  simpa using start.snoc step

/-- A machine with more steps has more runs. -/
theorem mono {Step' : σ → α → σ → Prop} {h : List (σ × α)} {t : σ} (run : Run Step s h t)
    (hstep : ∀ t a u, Step t a u → Step' t a u) : Run Step' s h t := by
  induction run with
  | nil => exact .nil
  | snoc _ step ih => exact ih.snoc (hstep _ _ _ step)

/-- The history of a list of actions of a machine that always succeeds. -/
def trail (f : σ → α → σ) : σ → List α → List (σ × α)
  | _, [] => []
  | s, a :: l => (s, a) :: trail f (f s a) l

/-- The last step of a run. -/
theorem last {h : List (σ × α)} {t u : σ} {a : α} (run : Run Step s (h ++ [(t, a)]) u) :
    Run Step s h t ∧ Step t a u := by
  generalize heq : h ++ [(t, a)] = h' at run
  cases run with
  | nil => simp at heq
  | snoc run step =>
    obtain ⟨rfl, hlast⟩ := List.append_inj' heq rfl
    obtain ⟨rfl, rfl⟩ := Prod.mk.inj (List.singleton_inj.mp hlast)
    exact ⟨run, step⟩

/-- A run up to one of its steps. -/
theorem split {h₁ h₂ : List (σ × α)} {t u : σ} {a : α}
    (run : Run Step s (h₁ ++ (t, a) :: h₂) u) : Run Step s h₁ t ∧ ∃ v, Step t a v := by
  induction h₂ using List.reverseRecOn generalizing u with
  | nil => exact ⟨run.last.1, u, run.last.2⟩
  | append_singleton h₂ p ih =>
    have hassoc : h₁ ++ (t, a) :: (h₂ ++ [p]) = (h₁ ++ (t, a) :: h₂) ++ [p] := by simp
    rw [hassoc] at run
    exact ih run.last.1

/-- Runs compose. -/
theorem append {h₁ h₂ : List (σ × α)} {t u : σ} (r₁ : Run Step s h₁ t) (r₂ : Run Step t h₂ u) :
    Run Step s (h₁ ++ h₂) u := by
  induction r₂ with
  | nil => simpa using r₁
  | snoc _ step ih => simpa [List.append_assoc] using ih.snoc step

/-- A run from one of its states on. -/
theorem rest {h₁ h₂ : List (σ × α)} {u : σ} (run : Run Step s (h₁ ++ h₂) u) :
    ∃ t, Run Step s h₁ t ∧ Run Step t h₂ u := by
  induction h₂ using List.reverseRecOn generalizing u with
  | nil =>
    rw [List.append_nil] at run
    exact ⟨u, run, .nil⟩
  | append_singleton h₂ p ih =>
    rw [← List.append_assoc] at run
    obtain ⟨before, step⟩ := run.last
    obtain ⟨t, first, later⟩ := ih before
    exact ⟨t, first, later.snoc step⟩

theorem of_foldl (f : σ → α → σ) (s : σ) (l : List α) :
    Run (det f) s (trail f s l) (l.foldl f s) := by
  induction l generalizing s with
  | nil => exact .nil
  | cons a l ih =>
    have first : Run (det f) s [(s, a)] (f s a) := one rfl
    exact first.append (ih (f s a))

/-- A list of actions, each of which succeeds, is a run with these actions. -/
theorem of_foldlM {f : σ → α → Option σ} {l : List α} {s t : σ} (h : l.foldlM f s = some t) :
    ∃ t', t'.map Prod.snd = l ∧ Run (partialDet f) s t' t := by
  induction l generalizing s with
  | nil =>
    obtain rfl := Option.some.inj h
    exact ⟨[], rfl, .nil⟩
  | cons a l ih =>
    rw [List.foldlM_cons] at h
    obtain ⟨u, hu, ht⟩ := Option.bind_eq_some_iff.mp h
    have first : Run (partialDet f) s [(s, a)] u := one hu
    obtain ⟨t', hact, rest⟩ := ih ht
    exact ⟨_, by simp [hact], first.append rest⟩

/-- A list of actions, each of which meets `C` and succeeds, is a run whose steps meet `C`. -/
theorem of_guarded {f : σ → α → Option σ} {C : σ → α → Prop} [∀ s a, Decidable (C s a)]
    {l : List α} {s t : σ} (h : l.foldlM (fun s a => if C s a then f s a else none) s = some t) :
    ∃ t', t'.map Prod.snd = l ∧ Run (partialDet f) s t' t ∧ EachStep C t' := by
  induction l generalizing s with
  | nil =>
    obtain rfl := Option.some.inj h
    exact ⟨[], rfl, .nil, fun p hp => absurd hp List.not_mem_nil⟩
  | cons a l ih =>
    rw [List.foldlM_cons] at h
    obtain ⟨u, hu, ht⟩ := Option.bind_eq_some_iff.mp h
    split at hu
    · rename_i ha
      have first : Run (partialDet f) s [(s, a)] u := one hu
      obtain ⟨t', hact, rest, hC⟩ := ih ht
      refine ⟨_, by simp [hact], first.append rest, fun p hp => ?_⟩
      rcases List.mem_append.mp hp with hp | hp
      · obtain rfl := List.mem_singleton.mp hp
        exact ha
      · exact hC p hp
    · cases hu

/-- The run of a list of actions of a machine that may get stuck. -/
def replay (f : σ → α → Option σ) (s : σ) (l : List α) : Option (List (σ × α) × σ) :=
  l.foldlM (fun p a => (f p.2 a).map fun u => (p.1 ++ [(p.2, a)], u)) ([], s)

theorem of_replay {f : σ → α → Option σ} {l : List α} {h : List (σ × α)} {t : σ}
    (hr : replay f s l = some (h, t)) : Run (partialDet f) s h t := by
  have hgen : ∀ (l : List α) (p : List (σ × α) × σ), Run (partialDet f) s p.1 p.2 →
      l.foldlM (fun p a => (f p.2 a).map fun u => (p.1 ++ [(p.2, a)], u)) p = some (h, t) →
      Run (partialDet f) s h t := by
    intro l
    induction l with
    | nil =>
      intro p run hp
      obtain rfl := Option.some.inj hp
      exact run
    | cons a l ih =>
      intro p run hp
      rw [List.foldlM_cons] at hp
      obtain ⟨q, hq, hrest⟩ := Option.bind_eq_some_iff.mp hp
      obtain ⟨u, hu, rfl⟩ := Option.map_eq_some_iff.mp hq
      exact ih _ (run.snoc hu) hrest
  exact hgen l ([], s) .nil hr

/-- An invariant that steps of the run keep holds in its last state. -/
theorem invariant_of {P : σ → Prop} {C : σ → α → Prop} {h : List (σ × α)} {t : σ}
    (run : Run Step s h t) (h0 : P s) (hstep : ∀ t a u, P t → C t a → Step t a u → P u)
    (hC : EachStep C h) : P t := by
  induction run with
  | nil => exact h0
  | snoc _ step ih =>
    obtain ⟨hC, ha⟩ := EachStep.snoc_iff.mp hC
    exact hstep _ _ _ (ih hC) ha step

/-- An invariant holds in the last state of every run. -/
theorem invariant {P : σ → Prop} {h : List (σ × α)} {t : σ} (run : Run Step s h t) (h0 : P s)
    (hstep : ∀ t a u, P t → Step t a u → P u) : P t :=
  run.invariant_of (C := fun _ _ => True) h0 (fun t a u ht _ hs => hstep t a u ht hs)
    fun _ _ => trivial

/-- An invariant kept by the steps that meet `C` holds in every state of a run whose steps all
meet `C`. -/
theorem always_of_eachStep {P : σ → Prop} {C : σ → α → Prop} {h : List (σ × α)} {t : σ}
    (run : Run Step s h t) (h0 : P s) (hstep : ∀ t a u, P t → C t a → Step t a u → P u)
    (hC : EachStep C h) : Always P h t := by
  induction run with
  | nil => exact ⟨by simp, h0⟩
  | snoc _ step ih =>
    obtain ⟨hC, ha⟩ := EachStep.snoc_iff.mp hC
    have ht := ih hC
    exact Always.snoc_iff.mpr ⟨ht, hstep _ _ _ ht.2 ha step⟩

/-- An invariant holds in every state of every run. -/
theorem always {P : σ → Prop} {h : List (σ × α)} {t : σ} (run : Run Step s h t) (h0 : P s)
    (hstep : ∀ t a u, P t → Step t a u → P u) : Always P h t :=
  run.always_of_eachStep (C := fun _ _ => True) h0 (fun t a u ht _ hs => hstep t a u ht hs)
    fun _ _ => trivial

/-- Where a step from a state with `I` and `P` keeps `P` and does `R` exactly when it meets `C`, the
runs that keep `P` and do `R` throughout are exactly the runs whose steps all meet `C`. `I` is any
invariant of the machine. -/
theorem always_iff_eachStep {I P : σ → Prop} {R C : σ → α → Prop} {h : List (σ × α)} {t : σ}
    (run : Run Step s h t) (hI0 : I s) (hI : ∀ t a u, I t → Step t a u → I u) (h0 : P s)
    (hstep : ∀ t a u, I t → P t → Step t a u → (P u ∧ R t a ↔ C t a)) :
    Always P h t ∧ EachStep R h ↔ EachStep C h := by
  induction run with
  | nil =>
    refine ⟨fun _ => ?_, fun _ => ⟨⟨?_, h0⟩, ?_⟩⟩ <;> simp [EachStep]
  | snoc run step ih =>
    have hIt := run.invariant hI0 hI
    rw [Always.snoc_iff, EachStep.snoc_iff, EachStep.snoc_iff, ← ih]
    refine ⟨fun ⟨⟨ht, hu⟩, hr, ha⟩ => ⟨⟨ht, hr⟩, ?_⟩, fun ⟨⟨ht, hr⟩, ha⟩ => ?_⟩
    · exact (hstep _ _ _ hIt ht.2 step).mp ⟨hu, ha⟩
    · obtain ⟨hu, ha⟩ := (hstep _ _ _ hIt ht.2 step).mpr ha
      exact ⟨⟨ht, hu⟩, hr, ha⟩

/-- What holds in every state of a run holds after each of its steps. -/
theorem always_after {P : σ → Prop} {h₁ h₂ : List (σ × α)} {t u : σ} {a : α}
    (run : Run Step s (h₁ ++ (t, a) :: h₂) u) (hP : Always P (h₁ ++ (t, a) :: h₂) u) :
    ∃ v, Step t a v ∧ P v := by
  induction h₂ using List.reverseRecOn generalizing u with
  | nil => exact ⟨u, run.last.2, hP.2⟩
  | append_singleton h₂ p ih =>
    have hassoc : h₁ ++ (t, a) :: (h₂ ++ [p]) = (h₁ ++ (t, a) :: h₂) ++ [(p.1, p.2)] := by simp
    rw [hassoc] at run hP
    exact ih run.last.1 (Always.snoc_iff.mp hP).1

/-- A run of one machine is matched by a run of another where each of its steps is matched by a run.
`R` relates a state of the first machine to a history and a last state of the second. -/
theorem simulate {τ : Type*} {β : Type*} {Step' : τ → β → τ → Prop} {s' : τ}
    {R : σ → List (τ × β) → τ → Prop} {C : σ → α → Prop} {h : List (σ × α)} {t : σ}
    (run : Run Step s h t) (h0 : R s [] s')
    (hstep : ∀ t a u h' t', Run Step' s' h' t' → R t h' t' → C t a → Step t a u →
      ∃ h'' u', Run Step' t' h'' u' ∧ R u (h' ++ h'') u')
    (hC : EachStep C h) : ∃ h' t', Run Step' s' h' t' ∧ R t h' t' := by
  induction run with
  | nil => exact ⟨[], s', .nil, h0⟩
  | snoc _ step ih =>
    obtain ⟨hC, ha⟩ := EachStep.snoc_iff.mp hC
    obtain ⟨h', t', run', hR⟩ := ih hC
    obtain ⟨h'', u', run'', hR'⟩ := hstep _ _ _ _ _ run' hR ha step
    exact ⟨_, u', run'.append run'', hR'⟩

/-- The states of a run are themselves reached by runs. -/
theorem of_mem {h : List (σ × α)} {t : σ} (run : Run Step s h t) {p : σ × α} (hp : p ∈ h) :
    ∃ h' u, Run Step s h' p.1 ∧ Step p.1 p.2 u := by
  induction run with
  | nil => simp at hp
  | snoc run step ih =>
    rcases List.mem_append.mp hp with hp | hp
    · exact ih hp
    · obtain rfl := List.mem_singleton.mp hp
      exact ⟨_, _, run, step⟩

end Run

end Machine
