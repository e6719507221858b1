import OnnxSim.Core.Retire

/-!
# The matrix pipeline

A matrix instruction leaves the execute queue for the pipeline with the cycles at which it starts and
finishes. It starts no earlier than the slot that its predecessor leaves free, so the pipeline is
ordered by finishing cycles, and since those lie at least four cycles apart the single pop of a cycle
is enough: what is in the pipeline is never overdue (`Core.InFlight`), and the instruction that is
popped is the one that finishes in this very cycle.
-/

namespace OnnxSim

namespace Core

variable {config : SimulationConfig} {c c' d : Core} {inst : Instruction}

/-! ## Stages that leave the pipeline alone -/

/-- The stages of a cycle before the execute queue is looked at. -/
def beforeExecute (config : SimulationConfig) (c : Core) : Option Core := do
  let c ← c.finishComputePipeline
  let c ← c.finishVectorPipeline
  handleLdInstQueue config c

theorem handlePipelines_eq (c : Core) : handlePipelines config c =
    (beforeExecute config c).bind fun d =>
      (handleExInstQueue config d).bind (handleStInstQueue config) := by
  unfold handlePipelines beforeExecute
  cases h₁ : c.finishComputePipeline with
  | none => rfl
  | some d₁ =>
    cases h₂ : d₁.finishVectorPipeline with
    | none => simp [h₂]
    | some d₂ => simp [h₂]

/-- What decides when matrix instructions enter and leave. -/
structure SamePipes (c d : Core) : Prop where
  id : d.id = c.id
  coreCycle : d.coreCycle = c.coreCycle
  computePipeline : d.computePipeline = c.computePipeline
  exInstQueue : d.exInstQueue = c.exInstQueue

theorem SamePipes.refl (c : Core) : SamePipes c c := ⟨rfl, rfl, rfl, rfl⟩

theorem SamePipes.trans {e : Core} (h₁ : SamePipes c d) (h₂ : SamePipes d e) : SamePipes c e :=
  ⟨h₂.id.trans h₁.id, h₂.coreCycle.trans h₁.coreCycle,
    h₂.computePipeline.trans h₁.computePipeline, h₂.exInstQueue.trans h₁.exInstQueue⟩

theorem setBuffer_pipes (a : Bool) (s : Sram) : SamePipes c (c.setBuffer a s) := by
  cases a <;> exact ⟨rfl, rfl, rfl, rfl⟩

theorem waiting_pipes (n : Nat) : SamePipes c { c with waitingWriteReqs := n } :=
  ⟨rfl, rfl, rfl, rfl⟩

theorem fillDest_pipes (h : c.fillDest inst = some d) : SamePipes c d := by
  obtain ⟨s, -, h⟩ := Option.bind_eq_some_iff.mp h
  obtain rfl := Option.some.inj h
  exact setBuffer_pipes _ s

theorem allocDest_pipes (h : c.allocDest inst = some d) : SamePipes c d := by
  obtain ⟨s, -, h⟩ := Option.bind_eq_some_iff.mp h
  obtain rfl := Option.some.inj h
  exact setBuffer_pipes _ s

theorem noteLast_pipes (h : c.noteLast inst = some d) : SamePipes c d := by
  unfold noteLast at h
  split at h
  · obtain ⟨p, -, h⟩ := Option.bind_eq_some_iff.mp h
    split at h
    · obtain rfl := Option.some.inj h
      exact ⟨rfl, rfl, rfl, rfl⟩
    · cases h
  · obtain rfl := Option.some.inj h
    exact SamePipes.refl c

theorem request_pipes {write : Bool} (h : c.request config inst write = some d) :
    SamePipes c d := by
  unfold request at h
  split at h
  · cases h
  · obtain rfl := Option.some.inj h
    exact ⟨rfl, rfl, rfl, rfl⟩

theorem finishVectorPipeline_pipes (h : c.finishVectorPipeline = some d) : SamePipes c d := by
  rcases finishVectorPipeline_cases h with rfl | ⟨x, rest, e, f, -, -, he, hf, rfl⟩
  · exact SamePipes.refl _
  · exact ((fillDest_pipes he).trans (noteLast_pipes hf)).trans ⟨rfl, rfl, rfl, rfl⟩

theorem handleLdInstQueue_pipes (h : handleLdInstQueue config c = some d) : SamePipes c d := by
  unfold handleLdInstQueue at h
  split at h
  · obtain rfl := Option.some.inj h
    exact SamePipes.refl _
  · split at h
    · obtain ⟨s, -, h⟩ := Option.bind_eq_some_iff.mp h
      obtain ⟨e, he, h⟩ := Option.bind_eq_some_iff.mp h
      obtain rfl := Option.some.inj h
      exact ((setBuffer_pipes _ s).trans (request_pipes he)).trans ⟨rfl, rfl, rfl, rfl⟩
    · cases h

theorem handleStInstQueue_pipes (h : handleStInstQueue config c = some d) : SamePipes c d := by
  unfold handleStInstQueue at h
  split at h
  · obtain rfl := Option.some.inj h
    exact SamePipes.refl _
  · cases h
  · split at h
    · split at h
      · obtain ⟨e, he, h⟩ := Option.bind_eq_some_iff.mp h
        obtain ⟨f, hf, h⟩ := Option.bind_eq_some_iff.mp h
        obtain rfl := Option.some.inj h
        exact (((request_pipes he).trans (waiting_pipes _)).trans (noteLast_pipes hf)).trans
          ⟨rfl, rfl, rfl, rfl⟩
      · obtain rfl := Option.some.inj h
        exact ⟨rfl, rfl, rfl, rfl⟩
    · cases h

theorem issue_pipes (c : Core) (op : Tile) : SamePipes c (c.issue op) := by
  unfold issue
  by_cases hskip : op.skip = true
  · simp only [hskip, if_true]
    exact ⟨rfl, rfl, rfl, rfl⟩
  · simp only [hskip]
    exact ⟨rfl, rfl, rfl, rfl⟩

theorem pushMemoryResponse_pipes {response : MemoryAccess}
    (h : c.pushMemoryResponse response = some d) : SamePipes c d := by
  unfold pushMemoryResponse at h
  split at h
  · cases h
  · split at h
    · obtain rfl := Option.some.inj h
      exact ⟨rfl, rfl, rfl, rfl⟩
    · split at h <;>
      · obtain ⟨s, -, h⟩ := Option.bind_eq_some_iff.mp h
        obtain rfl := Option.some.inj h
        exact ⟨rfl, rfl, rfl, rfl⟩

theorem popMemoryRequest_pipes {m : MemoryAccess} (h : c.popMemoryRequest = some (m, d)) :
    SamePipes c d := by
  rw [(popMemoryRequest_eq_some h).2]
  exact ⟨rfl, rfl, rfl, rfl⟩

theorem retire_pipes (c : Core) : SamePipes c c.retire := by
  rcases retire_cases c with h | ⟨i, t, -, -, -, h⟩ <;> rw [h] <;> exact ⟨rfl, rfl, rfl, rfl⟩

/-- The steps other than `cycle`. -/
theorem step_pipes {a : Act} (ha : a ≠ .cycle) (h : step config c a = some d) : SamePipes c d := by
  cases a with
  | issue op =>
    obtain rfl := Option.some.inj h
    exact issue_pipes c op
  | cycle => exact absurd rfl ha
  | popFinishedTile =>
    obtain rfl := Option.some.inj h
    exact ⟨rfl, rfl, rfl, rfl⟩
  | popMemoryRequest =>
    obtain ⟨⟨m, e⟩, he, rfl⟩ := Option.map_eq_some_iff.mp h
    exact popMemoryRequest_pipes he
  | pushMemoryResponse response => exact pushMemoryResponse_pipes h

/-- The issue loop adds to the execute queue at most. -/
theorem issueInstructions_pipeline (h : issueInstructions config c = some d) :
    d.id = c.id ∧ d.computePipeline = c.computePipeline := by
  unfold issueInstructions at h
  refine issueFrom_induction (P := fun d => d.id = c.id ∧ d.computePipeline = c.computePipeline)
    ?_ ?_ ?_ h
  · intro d i t inst insts hd _ _
    exact hd
  · intro d i t inst insts q hd _ _ hq
    cases hq <;> exact hd
  · exact ⟨rfl, rfl⟩

/-! ## Entering and leaving -/

/-- How long the pipeline is busy with `back` before `inst` can start. -/
def occupancy (config : SimulationConfig) (c : Core) (back inst : Instruction) : Nat :=
  if inst.opcode = .GEMM_PRELOAD then
    max (max back.computeSize 4) (config.coreConfig c.id).coreHeight
  else max back.computeSize 4

/-- The instruction with the cycles that the pipeline gives it. -/
def timed (config : SimulationConfig) (c : Core) (inst : Instruction) : Instruction :=
  { inst with
    startCycle := gemmStart config c inst
    finishCycle := gemmStart config c inst + getInstComputeCycles config c inst }

/-- The matrix instruction that the execute queue hands over in state `c`. -/
def entering (config : SimulationConfig) (c : Core) : Option Instruction :=
  match c.exInstQueue with
  | [] => none
  | front :: _ =>
    if canIssueCompute config c front && isGemm front.opcode then some (timed config c front)
    else none

theorem entering_of_nil (h : c.exInstQueue = []) : entering config c = none := by
  unfold entering
  rw [h]

theorem entering_of_cons {rest : List Instruction} (h : c.exInstQueue = inst :: rest) :
    entering config c = if canIssueCompute config c inst && isGemm inst.opcode then
      some (timed config c inst) else none := by
  unfold entering
  rw [h]

theorem gemmStart_of_getLast {back : Instruction} (h : c.computePipeline.getLast? = some back) :
    gemmStart config c inst = if back.startCycle + occupancy config c back inst < c.coreCycle then
      c.coreCycle else back.startCycle + occupancy config c back inst := by
  unfold gemmStart occupancy
  rw [h]

theorem occupancy_le (config : SimulationConfig) (c : Core) (back inst : Instruction) :
    max back.computeSize 4 ≤ occupancy config c back inst := by
  unfold occupancy
  split
  · exact Nat.le_max_left _ _
  · exact Nat.le_refl _

theorem gemmStart_congr (h : SamePipes c d) (inst : Instruction) :
    gemmStart config d inst = gemmStart config c inst := by
  unfold gemmStart
  rw [h.id, h.coreCycle, h.computePipeline]

theorem getInstComputeCycles_congr (h : d.id = c.id) (inst : Instruction) :
    getInstComputeCycles config d inst = getInstComputeCycles config c inst := by
  unfold getInstComputeCycles
  rw [h]

/-- The execute queue keeps its front, or hands it to one of the two pipelines. -/
inductive Executes (config : SimulationConfig) (c : Core) : Core → Prop
  | wait (blocked : ∀ front rest, c.exInstQueue = front :: rest → ¬ canIssueCompute config c front) :
      Executes config c c
  | gemm {front : Instruction} {rest : List Instruction} {e : Core}
      (queue : c.exInstQueue = front :: rest) (ready : canIssueCompute config c front)
      (isGemm : isGemm front.opcode) (alloc : c.allocDest front = some e) :
      Executes config c { e with
        computePipeline := c.computePipeline ++ [timed config c front], exInstQueue := rest }
  | vector {front : Instruction} {rest : List Instruction} {e : Core} {cycles : Nat}
      (queue : c.exInstQueue = front :: rest) (ready : canIssueCompute config c front)
      (isGemm : ¬ isGemm front.opcode) (alloc : c.allocDest front = some e) :
      Executes config c { e with
        vectorPipeline := e.vectorPipeline ++
          [{ front with startCycle := e.coreCycle, finishCycle := e.coreCycle + cycles }]
        exInstQueue := rest }

theorem handleExInstQueue_executes (h : handleExInstQueue config c = some d) :
    Executes config c d := by
  unfold handleExInstQueue at h
  split at h
  · rename_i hq
    obtain rfl := Option.some.inj h
    refine .wait fun front rest heq => ?_
    rw [hq] at heq
    cases heq
  · rename_i front rest hq
    split at h
    · rename_i hready
      obtain ⟨e, he, h⟩ := Option.bind_eq_some_iff.mp h
      have hpipes := allocDest_pipes he
      split at h
      · rename_i hgemm
        obtain rfl := Option.some.inj h
        have hexec := Executes.gemm hq hready hgemm he
        unfold timed at hexec
        rw [← gemmStart_congr hpipes, ← getInstComputeCycles_congr hpipes.id,
          ← hpipes.computePipeline] at hexec
        exact hexec
      · rename_i hgemm
        obtain ⟨cycles, -, h⟩ := Option.bind_eq_some_iff.mp h
        obtain rfl := Option.some.inj h
        exact .vector hq hready hgemm he
    · rename_i hready
      obtain rfl := Option.some.inj h
      refine .wait fun front' rest' heq => ?_
      rw [hq] at heq
      obtain ⟨rfl, -⟩ := List.cons.inj heq
      exact hready

theorem Executes.entering_eq (h : Executes config c d) :
    d.id = c.id ∧ d.coreCycle = c.coreCycle ∧
      d.computePipeline = c.computePipeline ++ (entering config c).toList := by
  cases h with
  | wait blocked =>
    refine ⟨rfl, rfl, ?_⟩
    have hnone : entering config c = none := by
      cases hq : c.exInstQueue with
      | nil => exact entering_of_nil hq
      | cons front rest => rw [entering_of_cons hq, if_neg (by simp [blocked front rest hq])]
    rw [hnone, Option.toList_none, List.append_nil]
  | gemm queue ready isGemm alloc =>
    have hpipes := allocDest_pipes alloc
    refine ⟨hpipes.id, hpipes.coreCycle, ?_⟩
    rw [entering_of_cons queue, ready, isGemm]
    rfl
  | vector queue ready isGemm alloc =>
    have hpipes := allocDest_pipes alloc
    refine ⟨hpipes.id, hpipes.coreCycle, ?_⟩
    rw [entering_of_cons queue, if_neg (by simp [isGemm]), Option.toList_none, List.append_nil]
    exact hpipes.computePipeline

/-! ## What is in flight -/

/-- The instructions of the pipeline start one after the other, with the cycles that the source
computes, and none is overdue. -/
structure InFlight (config : SimulationConfig) (c : Core) : Prop where
  starts : c.computePipeline.Pairwise fun x y => x.startCycle + max x.computeSize 4 ≤ y.startCycle
  finish : ∀ x ∈ c.computePipeline,
    x.finishCycle = x.startCycle + getInstComputeCycles config c x
  due : ∀ x ∈ c.computePipeline, c.coreCycle ≤ x.finishCycle

theorem InFlight.congr (h : InFlight config c) (hid : d.id = c.id)
    (hcycle : d.coreCycle = c.coreCycle) (hpipe : d.computePipeline = c.computePipeline) :
    InFlight config d := by
  refine ⟨hpipe ▸ h.starts, ?_, ?_⟩
  · rw [hpipe]
    intro x hx
    rw [getInstComputeCycles_congr hid]
    exact h.finish x hx
  · rw [hpipe, hcycle]
    exact h.due

/-- Finishing cycles lie at least four cycles apart. -/
theorem InFlight.finishes (h : InFlight config c) :
    c.computePipeline.Pairwise fun x y => x.finishCycle + 4 ≤ y.finishCycle := by
  refine List.Pairwise.imp_of_mem ?_ h.starts
  intro x y hx hy hstart
  rw [h.finish x hx, h.finish y hy]
  unfold getInstComputeCycles
  omega

/-- The pop of this cycle: the instruction that finishes now, if there is one. -/
structure PoppedOnTime (c d : Core) : Prop where
  popped : ∀ x ∈ c.computePipeline, x ∉ d.computePipeline → x.finishCycle = c.coreCycle
  kept : ∀ x ∈ d.computePipeline, x ∈ c.computePipeline ∧ c.coreCycle < x.finishCycle
  order : d.computePipeline <:+ c.computePipeline

theorem finishComputePipeline_pipeline (h : c.finishComputePipeline = some d) :
    d.id = c.id ∧ d.coreCycle = c.coreCycle ∧
    ((∀ x rest, c.computePipeline = x :: rest → c.coreCycle < x.finishCycle) ∧
        d.computePipeline = c.computePipeline ∨
      ∃ x rest, c.computePipeline = x :: rest ∧ x.finishCycle ≤ c.coreCycle ∧
        d.computePipeline = rest) := by
  unfold finishComputePipeline at h
  split at h
  · rename_i hpipe
    obtain rfl := Option.some.inj h
    refine ⟨rfl, rfl, .inl ⟨fun x rest heq => ?_, rfl⟩⟩
    rw [hpipe] at heq
    cases heq
  · rename_i x rest hpipe
    split at h
    · rename_i hdue
      obtain ⟨e, he, h⟩ := Option.bind_eq_some_iff.mp h
      obtain ⟨f, hf, h⟩ := Option.bind_eq_some_iff.mp h
      obtain rfl := Option.some.inj h
      have hpipes := (fillDest_pipes he).trans (noteLast_pipes hf)
      exact ⟨hpipes.id, hpipes.coreCycle, .inr ⟨x, rest, hpipe, hdue, rfl⟩⟩
    · rename_i hdue
      obtain rfl := Option.some.inj h
      refine ⟨rfl, rfl, .inl ⟨fun y rest' heq => ?_, rfl⟩⟩
      rw [hpipe] at heq
      obtain ⟨rfl, -⟩ := List.cons.inj heq
      omega

theorem finishComputePipeline_queue (h : c.finishComputePipeline = some d) :
    d.exInstQueue = c.exInstQueue := by
  rcases finishComputePipeline_cases h with rfl | ⟨x, rest, e, f, -, -, he, hf, rfl⟩
  · rfl
  · exact ((fillDest_pipes he).trans (noteLast_pipes hf)).exInstQueue

theorem InFlight.finishComputePipeline (h : InFlight config c)
    (hd : c.finishComputePipeline = some d) : InFlight config d ∧ PoppedOnTime c d := by
  obtain ⟨hid, hcycle, ⟨hlate, hpipe⟩ | ⟨x, rest, hpipe, hdue, hrest⟩⟩ :=
    finishComputePipeline_pipeline hd
  · refine ⟨h.congr hid hcycle hpipe, ?_, ?_, hpipe ▸ List.suffix_refl _⟩
    · intro x hx hnot
      exact absurd (hpipe ▸ hx) hnot
    · rw [hpipe]
      intro y hy
      refine ⟨hy, ?_⟩
      -- the front is not due, and the others finish later
      cases hc : c.computePipeline with
      | nil =>
        rw [hc] at hy
        cases hy
      | cons x rest =>
        have hfront := hlate x rest hc
        have hpairs := h.finishes
        rw [hc] at hy hpairs
        rcases List.mem_cons.mp hy with rfl | hy
        · exact hfront
        · have := (List.pairwise_cons.mp hpairs).1 y hy
          omega
  · have hpairs := h.finishes
    have hstarts := h.starts
    rw [hpipe, List.pairwise_cons] at hpairs hstarts
    have hsub : ∀ y ∈ d.computePipeline, y ∈ c.computePipeline := by
      rw [hpipe, hrest]
      exact fun y hy => List.mem_cons_of_mem x hy
    have hnow := h.due x (hpipe ▸ List.mem_cons_self)
    refine ⟨⟨hrest ▸ hstarts.2, fun y hy => ?_, fun y hy => ?_⟩, ?_, ?_, ?_⟩
    · rw [getInstComputeCycles_congr hid]
      exact h.finish y (hsub y hy)
    · rw [hcycle]
      exact h.due y (hsub y hy)
    · rw [hpipe, hrest]
      intro y hy hnot
      rcases List.mem_cons.mp hy with rfl | hy
      · omega
      · exact absurd hy hnot
    · intro y hy
      refine ⟨hsub y hy, ?_⟩
      have := hpairs.1 y (hrest ▸ hy)
      omega
    · rw [hpipe, hrest]
      exact List.suffix_cons x rest

theorem gemmStart_ge (h : InFlight config c) {x : Instruction} (hx : x ∈ c.computePipeline)
    (inst : Instruction) : x.startCycle + max x.computeSize 4 ≤ gemmStart config c inst := by
  obtain ⟨front, back, hpipe⟩ := (List.eq_nil_or_concat' _).resolve_left (List.ne_nil_of_mem hx)
  have hlast : c.computePipeline.getLast? = some back := by
    rw [hpipe, List.getLast?_append_of_ne_nil _ (List.cons_ne_nil _ _)]
    rfl
  have hback : x.startCycle + max x.computeSize 4 ≤ back.startCycle + max back.computeSize 4 := by
    have hstarts := h.starts
    rw [hpipe] at hx hstarts
    rcases List.mem_append.mp hx with hx | hx
    · have := (List.pairwise_append.mp hstarts).2.2 x hx back List.mem_cons_self
      omega
    · obtain rfl := List.mem_singleton.mp hx
      exact Nat.le_refl _
  have hocc := occupancy_le config c back inst
  rw [gemmStart_of_getLast hlast]
  split <;> omega

/-- A new instruction starts in this cycle or later. -/
theorem le_gemmStart (config : SimulationConfig) (c : Core) (inst : Instruction) :
    c.coreCycle ≤ gemmStart config c inst := by
  cases hlast : c.computePipeline.getLast? with
  | none =>
    unfold gemmStart
    rw [hlast]
    simp only
    split
    · exact Nat.le_add_right _ _
    · exact Nat.le_refl _
  | some back =>
    rw [gemmStart_of_getLast hlast]
    split
    · exact Nat.le_refl _
    · exact Nat.le_of_not_lt ‹_›

theorem lt_finishCycle_timed (config : SimulationConfig) (c : Core) (inst : Instruction) :
    c.coreCycle < (timed config c inst).finishCycle := by
  have hstart := le_gemmStart config c inst
  have hcycles : 2 ≤ getInstComputeCycles config c inst := by
    unfold getInstComputeCycles
    omega
  change c.coreCycle < gemmStart config c inst + getInstComputeCycles config c inst
  omega

theorem exists_timed {x : Instruction} (h : entering config c = some x) :
    ∃ inst rest, c.exInstQueue = inst :: rest ∧ canIssueCompute config c inst ∧
      isGemm inst.opcode ∧ x = timed config c inst := by
  cases hq : c.exInstQueue with
  | nil =>
    rw [entering_of_nil hq] at h
    cases h
  | cons inst rest =>
    rw [entering_of_cons hq] at h
    split at h
    · rename_i hready
      obtain ⟨hissue, hgemm⟩ := Bool.and_eq_true_iff.mp hready
      exact ⟨inst, rest, rfl, hissue, hgemm, (Option.some.inj h).symm⟩
    · cases h

theorem InFlight.push (h : InFlight config c) {x : Instruction} (hx : entering config c = some x)
    (hid : d.id = c.id) (hcycle : d.coreCycle = c.coreCycle)
    (hpipe : d.computePipeline = c.computePipeline ++ [x]) : InFlight config d := by
  obtain ⟨inst, -, -, -, -, rfl⟩ := exists_timed hx
  refine ⟨?_, ?_, ?_⟩
  · rw [hpipe, List.pairwise_append]
    refine ⟨h.starts, List.pairwise_singleton _ _, fun y hy z hz => ?_⟩
    obtain rfl := List.mem_singleton.mp hz
    exact gemmStart_ge h hy inst
  · rw [hpipe]
    intro y hy
    rw [getInstComputeCycles_congr hid]
    rcases List.mem_append.mp hy with hy | hy
    · exact h.finish y hy
    · obtain rfl := List.mem_singleton.mp hy
      rfl
  · rw [hpipe, hcycle]
    intro y hy
    rcases List.mem_append.mp hy with hy | hy
    · exact h.due y hy
    · obtain rfl := List.mem_singleton.mp hy
      exact (le_gemmStart config c inst).trans (Nat.le_add_right _ _)

/-! ## A cycle -/

/-- What a call of `cycle` does to the pipeline: `e` is the state in which the execute queue is
looked at. -/
structure CyclePipes (config : SimulationConfig) (c e d : Core) : Prop where
  beforeExecute : beforeExecute config c = some e
  popped : ∃ c₁, c.finishComputePipeline = some c₁ ∧ SamePipes c₁ e
  id : d.id = e.id
  coreCycle : d.coreCycle = e.coreCycle + 1
  computePipeline : d.computePipeline = e.computePipeline ++ (entering config e).toList

theorem beforeExecute_pipes {e : Core} (h : beforeExecute config c = some e) :
    ∃ c₁, c.finishComputePipeline = some c₁ ∧ SamePipes c₁ e := by
  obtain ⟨c₁, h₁, h⟩ := Option.bind_eq_some_iff.mp h
  obtain ⟨c₂, h₂, h⟩ := Option.bind_eq_some_iff.mp h
  exact ⟨c₁, h₁, (finishVectorPipeline_pipes h₂).trans (handleLdInstQueue_pipes h)⟩

theorem beforeRetirement_eq_some (h : beforeRetirement config c = some d) :
    ∃ e, handlePipelines config c = some e ∧ issueInstructions config e = some d := by
  unfold beforeRetirement at h
  split at h
  · cases h
  · exact Option.bind_eq_some_iff.mp h

theorem cycle_pipes (h : cycle config c = some d) : ∃ e, CyclePipes config c e d := by
  obtain ⟨d₀, hbefore, hd⟩ := Option.bind_eq_some_iff.mp h
  obtain rfl := Option.some.inj hd
  obtain ⟨d₁, hstages, hissue⟩ := beforeRetirement_eq_some hbefore
  rw [handlePipelines_eq] at hstages
  obtain ⟨e, he, hstages⟩ := Option.bind_eq_some_iff.mp hstages
  obtain ⟨d₂, hex, hst⟩ := Option.bind_eq_some_iff.mp hstages
  have hretire := retire_pipes d₀
  have hstore := handleStInstQueue_pipes hst
  obtain ⟨hid, hpipe⟩ := issueInstructions_pipeline hissue
  obtain ⟨hexId, hexCycle, hexPipe⟩ := (handleExInstQueue_executes hex).entering_eq
  refine ⟨e, he, beforeExecute_pipes he, ?_, ?_, ?_⟩
  · rw [hretire.id, hid, hstore.id, hexId]
  · rw [hretire.coreCycle, issueInstructions_coreCycle hissue, hstore.coreCycle, hexCycle]
  · rw [hretire.computePipeline, hpipe, hstore.computePipeline, hexPipe]

theorem InFlight.cycle (h : InFlight config c) (hd : cycle config c = some d) :
    InFlight config d := by
  obtain ⟨e, hpipes⟩ := cycle_pipes hd
  obtain ⟨c₁, hpop, hsame⟩ := hpipes.popped
  obtain ⟨hc₁, hontime⟩ := h.finishComputePipeline hpop
  obtain ⟨-, hclock, -⟩ := finishComputePipeline_pipeline hpop
  have he : InFlight config e := hc₁.congr hsame.id hsame.coreCycle hsame.computePipeline
  have hkept : ∀ x ∈ e.computePipeline, e.coreCycle < x.finishCycle := by
    rw [hsame.computePipeline, hsame.coreCycle, hclock]
    exact fun x hx => (hontime.kept x hx).2
  have hpush : ∃ e', e'.id = e.id ∧ e'.computePipeline = d.computePipeline ∧ InFlight config e' ∧
      ∀ x ∈ e'.computePipeline, e.coreCycle < x.finishCycle := by
    rw [hpipes.computePipeline]
    cases hx : entering config e with
    | none => exact ⟨e, rfl, (List.append_nil _).symm, he, hkept⟩
    | some x =>
      refine ⟨{ e with computePipeline := e.computePipeline ++ [x] }, rfl, rfl,
        he.push hx rfl rfl rfl, fun y hy => ?_⟩
      rcases List.mem_append.mp hy with hy | hy
      · exact hkept y hy
      · obtain ⟨inst, -, -, -, -, rfl⟩ := exists_timed hx
        obtain rfl := List.mem_singleton.mp hy
        exact lt_finishCycle_timed config e inst
  obtain ⟨e', hid, hpipe, he', hlate⟩ := hpush
  refine ⟨hpipe ▸ he'.starts, ?_, ?_⟩
  · rw [← hpipe]
    intro x hx
    rw [getInstComputeCycles_congr (hpipes.id.trans hid.symm)]
    exact he'.finish x hx
  · rw [← hpipe, hpipes.coreCycle]
    exact hlate

theorem InFlight.step {a : Act} (h : InFlight config c) (hd : step config c a = some d) :
    InFlight config d := by
  by_cases ha : a = .cycle
  · subst ha
    exact h.cycle hd
  · have hpipes := step_pipes ha hd
    exact h.congr hpipes.id hpipes.coreCycle hpipes.computePipeline

theorem InFlight.of_nil (h : c.computePipeline = []) : InFlight config c where
  starts := h ▸ List.Pairwise.nil
  finish := h ▸ fun _ hx => absurd hx List.not_mem_nil
  due := h ▸ fun _ hx => absurd hx List.not_mem_nil

/-- In every run the pipeline is in order and nothing in it is overdue. -/
theorem Run.inFlight {id layerId fusedOpId : Nat} {h : List (Core × Act)}
    (run : Run config id layerId fusedOpId h c) : InFlight config c :=
  Machine.Run.invariant run (InFlight.of_nil rfl) fun _ _ _ hc hs => hc.step hs

/-! ## What has entered -/

/-- The matrix instruction that enters the pipeline in this step. -/
def enters (config : SimulationConfig) (c : Core) : Act → Option Instruction
  | .cycle => (beforeExecute config c).bind (entering config)
  | _ => none

/-- The matrix instructions that have entered the pipeline in a run, in this order. -/
def entered (config : SimulationConfig) (h : List (Core × Act)) : List Instruction :=
  h.flatMap fun p => (enters config p.1 p.2).toList

theorem entered_snoc (h : List (Core × Act)) (c : Core) (a : Act) :
    entered config (h ++ [(c, a)]) = entered config h ++ (enters config c a).toList := by
  unfold entered
  rw [List.flatMap_append, List.flatMap_singleton]

end Core

end OnnxSim
