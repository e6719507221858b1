import Mathlib.Algebra.Ring.Nat
import OnnxSim.Core.Pipeline

/-!
# Bubbles of the systolic array

`SystolicWS::cycle` adds to `_stat_systolic_bubble_cycle` when a matrix instruction enters the pipeline
after the slot of its predecessor has been free for a while. The gaps themselves telescope: together they
never exceed the cycles that have passed (`Run.idleGaps_le`). What is added is not the gap: the two terms
after the minus sign are not in brackets, so twice the slot is added to it. The statistic is right
exactly in the runs in which nothing is ever added (`Run.bubbles_right_iff`).
-/

namespace OnnxSim

namespace Core

variable {config : SimulationConfig} {c d e : Core}

/-! ## The statistic -/

/-- What the execute queue's part of `SystolicWS::cycle` adds to `_stat_systolic_bubble_cycle`. -/
def addedBubbles (config : SimulationConfig) (c : Core) : Nat :=
  match entering config c with
  | none => 0
  | some x =>
    match c.computePipeline.getLast? with
    | none => 0
    | some back =>
      let offset := occupancy config c back x
      if back.startCycle + offset < c.coreCycle then c.coreCycle - back.startCycle + offset else 0

/-- The cycles between the slot that the last instruction of the pipeline leaves free and the start of
the instruction that enters. -/
def idleGap (config : SimulationConfig) (c : Core) : Nat :=
  match entering config c with
  | none => 0
  | some x =>
    match c.computePipeline.getLast? with
    | none => 0
    | some back => x.startCycle - (back.startCycle + occupancy config c back x)

/-- A matrix instruction enters behind another whose slot is free already. -/
def EntersLate (config : SimulationConfig) (c : Core) : Prop :=
  ∃ x back, entering config c = some x ∧ c.computePipeline.getLast? = some back ∧
    back.startCycle + occupancy config c back x < c.coreCycle

/-- `f` of the state in which a call of `cycle` looks at the execute queue. -/
def atExecute (config : SimulationConfig) (f : Core → Nat) (c : Core) : Act → Nat
  | .cycle => ((beforeExecute config c).map f).getD 0
  | _ => 0

/-- What a step adds to the statistic. -/
def bubbles (config : SimulationConfig) : Core → Act → Nat := atExecute config (addedBubbles config)

/-- The idle gap that opens in a step. -/
def gap (config : SimulationConfig) : Core → Act → Nat := atExecute config (idleGap config)

/-- In this step the branch of the source is taken that counts bubbles. -/
def Late (config : SimulationConfig) (c : Core) : Act → Prop
  | .cycle => ∃ e, beforeExecute config c = some e ∧ EntersLate config e
  | _ => False

/-- Everything that a run adds to the statistic is the gap, and all of it together is no more than the
cycles that have passed. -/
structure BubblesRight (config : SimulationConfig) (h : List (Core × Act)) (c : Core) : Prop where
  each : ∀ p ∈ h, bubbles config p.1 p.2 = gap config p.1 p.2
  total : (h.map fun p => bubbles config p.1 p.2).sum ≤ c.coreCycle

/-! ## One instruction -/

theorem entering_startCycle {x : Instruction} (h : entering config c = some x) {back : Instruction}
    (hback : c.computePipeline.getLast? = some back) :
    x.startCycle = if back.startCycle + occupancy config c back x < c.coreCycle then c.coreCycle
      else back.startCycle + occupancy config c back x := by
  obtain ⟨inst, -, -, -, -, rfl⟩ := exists_timed h
  exact gemmStart_of_getLast hback

theorem addedBubbles_of_not_late (h : ¬ EntersLate config c) :
    addedBubbles config c = 0 ∧ idleGap config c = 0 := by
  unfold addedBubbles idleGap
  cases hx : entering config c with
  | none => exact ⟨rfl, rfl⟩
  | some x =>
    cases hback : c.computePipeline.getLast? with
    | none => exact ⟨rfl, rfl⟩
    | some back =>
      have hlate : ¬ back.startCycle + occupancy config c back x < c.coreCycle :=
        fun hlt => h ⟨x, back, hx, hback, hlt⟩
      simp only [entering_startCycle hx hback, if_neg hlate, Nat.sub_self, and_self]

/-- The instruction starts at once; twice the slot of its predecessor is added to the gap. -/
theorem addedBubbles_of_late (h : EntersLate config c) :
    ∃ x back, entering config c = some x ∧ c.computePipeline.getLast? = some back ∧
      addedBubbles config c = idleGap config c + 2 * occupancy config c back x ∧
      back.startCycle + occupancy config c back x + idleGap config c = c.coreCycle ∧
      x.startCycle = c.coreCycle := by
  obtain ⟨x, back, hx, hback, hlt⟩ := h
  have hstart := entering_startCycle hx hback
  rw [if_pos hlt] at hstart
  refine ⟨x, back, hx, hback, ?_, ?_, hstart⟩ <;>
    simp only [addedBubbles, idleGap, hx, hback, if_pos hlt, hstart] <;> omega

/-- What is added is the gap only when nothing is added. -/
theorem addedBubbles_eq_iff : addedBubbles config c = idleGap config c ↔ ¬ EntersLate config c := by
  constructor
  · intro heq hlate
    obtain ⟨x, back, -, -, hadded, -⟩ := addedBubbles_of_late hlate
    have hocc := occupancy_le config c back x
    omega
  · intro hlate
    obtain ⟨hadded, hgap⟩ := addedBubbles_of_not_late hlate
    rw [hadded, hgap]

theorem bubbles_eq_iff (a : Act) : bubbles config c a = gap config c a ↔ ¬ Late config c a := by
  cases a with
  | cycle =>
    unfold bubbles gap atExecute Late
    cases beforeExecute config c with
    | none => simp
    | some e =>
      simp only [Option.map_some, Option.getD_some, Option.some.injEq, exists_eq_left']
      exact addedBubbles_eq_iff
  | _ => simp [bubbles, gap, atExecute, Late]

/-! ## Runs -/

/-- The gaps of a run, as far as it has got: they end where the last instruction starts. -/
structure GapsBefore (n : Nat) (c : Core) : Prop where
  clock : n ≤ c.coreCycle
  start : ∀ back, c.computePipeline.getLast? = some back → n ≤ back.startCycle

theorem GapsBefore.execute {n : Nat} (h : GapsBefore n e) (hcycle : d.coreCycle = e.coreCycle + 1)
    (hpipe : d.computePipeline = e.computePipeline ++ (entering config e).toList) :
    GapsBefore (n + idleGap config e) d := by
  cases hx : entering config e with
  | none =>
    rw [hx, Option.toList_none, List.append_nil] at hpipe
    have hgap : idleGap config e = 0 := by
      unfold idleGap
      rw [hx]
    refine ⟨?_, ?_⟩
    · have := h.clock
      omega
    · rw [hpipe, hgap]
      exact h.start
  | some x =>
    rw [hx, Option.toList_some] at hpipe
    have hlast : d.computePipeline.getLast? = some x := by
      rw [hpipe, List.getLast?_append_of_ne_nil _ (List.cons_ne_nil _ _)]
      rfl
    have hbound : n + idleGap config e ≤ e.coreCycle ∧ e.coreCycle ≤ x.startCycle := by
      have hnow : e.coreCycle ≤ x.startCycle := by
        obtain ⟨inst, -, -, -, -, rfl⟩ := exists_timed hx
        exact le_gemmStart config e inst
      by_cases hlate : EntersLate config e
      · obtain ⟨y, back, -, hback, -, hgap, -⟩ := addedBubbles_of_late hlate
        have := h.start back hback
        omega
      · have := h.clock
        rw [(addedBubbles_of_not_late hlate).2]
        omega
    refine ⟨by omega, fun back hback => ?_⟩
    rw [hlast] at hback
    obtain rfl := Option.some.inj hback
    omega

theorem GapsBefore.congr {n : Nat} (h : GapsBefore n c) (hcycle : d.coreCycle = c.coreCycle)
    (hpipe : d.computePipeline <:+ c.computePipeline) : GapsBefore n d := by
  refine ⟨hcycle ▸ h.clock, fun back hback => h.start back ?_⟩
  obtain ⟨front, hfront⟩ := hpipe
  have hne : d.computePipeline ≠ [] := by
    intro hnil
    rw [hnil] at hback
    cases hback
  rw [← hfront, List.getLast?_append_of_ne_nil _ hne, hback]

theorem GapsBefore.step {n : Nat} {a : Act} (h : GapsBefore n c) (hflight : InFlight config c)
    (hd : step config c a = some d) : GapsBefore (n + gap config c a) d := by
  by_cases ha : a = .cycle
  · subst ha
    obtain ⟨e, hpipes⟩ := cycle_pipes hd
    obtain ⟨c₁, hpop, hsame⟩ := hpipes.popped
    have hclock := (finishComputePipeline_pipeline hpop).2.1
    have hgap : gap config c .cycle = idleGap config e := by
      unfold gap atExecute
      rw [hpipes.beforeExecute]
      rfl
    have he : GapsBefore n e := by
      refine h.congr (hsame.coreCycle.trans hclock) ?_
      rw [hsame.computePipeline]
      exact (hflight.finishComputePipeline hpop).2.order
    rw [hgap]
    exact he.execute hpipes.coreCycle hpipes.computePipeline
  · have hpipes := step_pipes ha hd
    have hgap : gap config c a = 0 := by
      cases a with
      | cycle => exact absurd rfl ha
      | _ => rfl
    rw [hgap]
    exact h.congr hpipes.coreCycle (hpipes.computePipeline ▸ List.suffix_refl _)

/-- In every run the idle gaps together are no more than the cycles that have passed. -/
theorem Run.idleGaps_le {id layerId fusedOpId : Nat} {h : List (Core × Act)}
    (run : Run config id layerId fusedOpId h c) :
    (h.map fun p => gap config p.1 p.2).sum ≤ c.coreCycle := by
  have hgaps : GapsBefore (h.map fun p => gap config p.1 p.2).sum c := by
    induction run with
    | nil => exact ⟨Nat.zero_le _, fun back hback => by cases hback⟩
    | snoc run step ih =>
      rw [List.map_append, List.sum_append, List.map_singleton, List.sum_singleton]
      exact ih.step (Run.inFlight run) step
  exact hgaps.clock

/-- In a run, the statistic counts the gaps exactly when no instruction enters late, and then it counts
nothing. -/
theorem Run.bubbles_right_iff {id layerId fusedOpId : Nat} {h : List (Core × Act)}
    (run : Run config id layerId fusedOpId h c) :
    BubblesRight config h c ↔ ∀ p ∈ h, ¬ Late config p.1 p.2 := by
  constructor
  · intro hright p hp
    exact (bubbles_eq_iff p.2).mp (hright.each p hp)
  · intro hlate
    have heach : ∀ p ∈ h, bubbles config p.1 p.2 = gap config p.1 p.2 :=
      fun p hp => (bubbles_eq_iff p.2).mpr (hlate p hp)
    refine ⟨heach, ?_⟩
    rw [List.map_congr_left heach]
    exact run.idleGaps_le

/-- Two tiles of one weight load each, the second of which comes when the slot of the first has been
free for a while. -/
def lateCalls (n : Nat) : List Act :=
  preloadCalls 25 ++ .issue { preloadTile with ptr := 1 } :: List.replicate n .cycle

/-- A gap of two cycles is counted as 18. -/
theorem lateTile_overcounted :
    ¬ ∀ (config : SimulationConfig) (id layerId fusedOpId : Nat) (h : List (Core × Act)) (c : Core),
      Run config id layerId fusedOpId h c → BubblesRight config h c := by
  intro hall
  have hcounts : ((lateCalls 1).foldlM (step smallArray) (init smallArray 0 0 0)).bind (fun c =>
      (step smallArray c .cycle).map fun _ => (bubbles smallArray c .cycle, gap smallArray c .cycle)) =
      some (18, 2) := by
    decide +kernel
  obtain ⟨c, hc, hcounts⟩ := Option.bind_eq_some_iff.mp hcounts
  obtain ⟨d, hd, hcounts⟩ := Option.map_eq_some_iff.mp hcounts
  obtain ⟨hbubbles, hgap⟩ := Prod.mk.inj hcounts
  obtain ⟨h, -, run⟩ := Machine.Run.of_foldlM hc
  have run' : Run smallArray 0 0 0 (h ++ [(c, .cycle)]) d := run.snoc hd
  have heach := (hall _ _ _ _ _ _ run').each (c, .cycle) (by simp)
  rw [hbubbles, hgap] at heach
  exact absurd heach (by decide)

/-- The criterion for that run. -/
theorem Run.bubbles_right_iff_lateTile : ∃ (h : List (Core × Act)) (c : Core),
    h.map Prod.snd = lateCalls 2 ∧ Run smallArray 0 0 0 h c ∧
    (BubblesRight smallArray h c ↔ ∀ p ∈ h, ¬ Late smallArray p.1 p.2) := by
  have hsome : ((lateCalls 2).foldlM (step smallArray) (init smallArray 0 0 0)).isSome := by
    decide +kernel
  obtain ⟨c, hc⟩ := Option.isSome_iff_exists.mp hsome
  obtain ⟨h, hacts, run⟩ := Machine.Run.of_foldlM hc
  have run' : Run smallArray 0 0 0 h c := run
  exact ⟨h, c, hacts, run', Run.bubbles_right_iff run'⟩

end Core

end OnnxSim
