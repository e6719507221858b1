import OnnxSim.Core.Effects
import OnnxSim.Core.Pipeline

/-!
# Accumulators of consecutive tiles

The tiles that add to one block of the output follow each other, and each keeps the accumulator of the
tile before it. `Core::issue` does not remember that tile: it takes the accumulator from whichever tile
is running, and buffer 0 if none is. So the accumulators are right exactly in the runs in which each
such tile finds the accumulator there (`Continuity.continuous_iff`): the tile that is running has it and
belongs to the same operation, or no tile is running and it is buffer 0.
-/

namespace OnnxSim

/-- The tile without what is written into it while it runs. -/
def Tile.still (t : Tile) : Tile := { t with instructions := [], instFinished := false }

namespace Core

theorem mark_still (x : Instruction) (t : Tile) : (mark x t).still = t.still := by
  unfold mark
  split <;> rfl

variable {config : SimulationConfig} {c d : Core}

def Act.issues : Act → Option Tile
  | .issue op => some op
  | _ => none

/-- The layer and the fused operation of the tile that was issued last. -/
def current (c : Core) : Nat × Nat := (c.currentLayerId, c.currentFusedOpId)

/-- Nothing has been issued and no tile has been retired. -/
structure Still (c d : Core) : Prop where
  current : d.current = c.current
  tiles : d.tiles.map Tile.still = c.tiles.map Tile.still

namespace Still

variable {e : Core}

theorem refl (c : Core) : Still c c := ⟨rfl, rfl⟩

theorem trans (h₁ : Still c d) (h₂ : Still d e) : Still c e :=
  ⟨h₂.current.trans h₁.current, h₂.tiles.trans h₁.tiles⟩

theorem setBuffer (a : Bool) (s : Sram) : Still c (c.setBuffer a s) := by
  rw [setBuffer_eq]
  exact ⟨rfl, rfl⟩

theorem marked {x : Instruction} {a : Bool} {s : Sram} (hcurrent : d.current = (c.setBuffer a s).current)
    (htiles : d.tiles = c.tiles.map (mark x)) : Still c d := by
  refine ⟨hcurrent.trans (setBuffer a s).current, ?_⟩
  rw [htiles, List.map_map]
  exact List.map_congr_left fun t _ => mark_still x t

end Still

/-! ## Steps that issue nothing -/

theorem finishComputePipeline_still (h : c.finishComputePipeline = some d) : Still c d := by
  rcases finishComputePipeline_effect h with rfl | ⟨x, rest, s, fin, -, -, rfl⟩
  · exact Still.refl _
  · exact Still.marked rfl rfl

theorem finishVectorPipeline_still (h : c.finishVectorPipeline = some d) : Still c d := by
  rcases finishVectorPipeline_effect h with rfl | ⟨x, rest, s, fin, -, -, rfl⟩
  · exact Still.refl _
  · exact Still.marked rfl rfl

theorem handleLdInstQueue_still (h : handleLdInstQueue config c = some d) : Still c d := by
  rcases handleLdInstQueue_effect h with ⟨rfl, -⟩ | ⟨x, rest, s, -, -, -, rfl⟩
  · exact Still.refl _
  · exact (Still.setBuffer _ s).trans ⟨rfl, rfl⟩

theorem allocDest_still {x : Instruction} (h : c.allocDest x = some d) : Still c d := by
  obtain ⟨s, -, h⟩ := Option.bind_eq_some_iff.mp h
  obtain rfl := Option.some.inj h
  exact Still.setBuffer _ s

theorem handleExInstQueue_still (h : handleExInstQueue config c = some d) : Still c d := by
  cases handleExInstQueue_executes h with
  | wait blocked => exact Still.refl _
  | gemm queue ready isGemm alloc => exact (allocDest_still alloc).trans ⟨rfl, rfl⟩
  | vector queue ready isGemm alloc => exact (allocDest_still alloc).trans ⟨rfl, rfl⟩

theorem handleStInstQueue_still (h : handleStInstQueue config c = some d) : Still c d := by
  rcases handleStInstQueue_effect h with ⟨rfl, -⟩ | ⟨x, rest, -, -, rfl⟩ |
    ⟨x, rest, w, fin, -, -, rfl⟩
  · exact Still.refl _
  · exact ⟨rfl, rfl⟩
  · refine ⟨rfl, ?_⟩
    rw [List.map_map]
    exact List.map_congr_left fun t _ => mark_still x t

theorem set_still {l : List Tile} {i : Nat} {t : Tile} (ht : l[i]? = some t)
    (insts : List Instruction) :
    (l.set i { t with instructions := insts }).map Tile.still = l.map Tile.still := by
  refine List.ext_getElem? fun j => ?_
  rw [List.getElem?_map, List.getElem?_map, List.getElem?_set]
  split
  · rename_i hij
    subst hij
    rw [ht, if_pos (List.getElem?_eq_some_iff.mp ht).1]
    rfl
  · rfl

theorem issueInstructions_still (h : issueInstructions config c = some d) : Still c d := by
  unfold issueInstructions at h
  refine issueFrom_induction (P := fun d => Still c d) ?_ ?_ ?_ h
  · intro e i t inst insts he ht _
    exact ⟨he.current, (set_still ht _).trans he.tiles⟩
  · intro e i t inst insts q he ht _ hq
    refine ⟨?_, (set_still ht _).trans he.tiles⟩
    cases hq <;> exact he.current
  · exact ⟨rfl, rfl⟩

theorem beforeRetirement_still (h : beforeRetirement config c = some d) : Still c d := by
  obtain ⟨e, hstages, hissue⟩ := beforeRetirement_eq_some h
  obtain ⟨e₁, h₁, hstages⟩ := Option.bind_eq_some_iff.mp hstages
  obtain ⟨e₂, h₂, hstages⟩ := Option.bind_eq_some_iff.mp hstages
  obtain ⟨e₃, h₃, hstages⟩ := Option.bind_eq_some_iff.mp hstages
  obtain ⟨e₄, h₄, h₅⟩ := Option.bind_eq_some_iff.mp hstages
  have hmoved : Still c e₂ := (finishComputePipeline_still h₁).trans (finishVectorPipeline_still h₂)
  have hexecuted : Still e₂ e := (handleLdInstQueue_still h₃).trans
    ((handleExInstQueue_still h₄).trans (handleStInstQueue_still h₅))
  exact (hmoved.trans hexecuted).trans (issueInstructions_still hissue)

/-- A step that issues nothing may retire a tile. -/
theorem step_still {a : Act} (ha : a.issues = none) (h : step config c a = some d) :
    d.current = c.current ∧ (d.tiles.map Tile.still).Sublist (c.tiles.map Tile.still) := by
  cases a with
  | issue op => cases ha
  | cycle =>
    obtain ⟨e, hbefore, hd⟩ := Option.bind_eq_some_iff.mp h
    obtain rfl := Option.some.inj hd
    have hstill := beforeRetirement_still hbefore
    rw [← hstill.current, ← hstill.tiles]
    rcases retire_cases e with heq | ⟨i, t, -, -, -, heq⟩ <;> rw [heq]
    · exact ⟨rfl, List.Sublist.refl _⟩
    · exact ⟨rfl, (List.eraseIdx_sublist ..).map _⟩
  | popFinishedTile =>
    obtain rfl := Option.some.inj h
    exact ⟨rfl, List.Sublist.refl _⟩
  | popMemoryRequest =>
    obtain ⟨⟨m, e⟩, he, rfl⟩ := Option.map_eq_some_iff.mp h
    rw [(popMemoryRequest_eq_some he).2]
    exact ⟨rfl, List.Sublist.refl _⟩
  | pushMemoryResponse response =>
    rcases pushMemoryResponse_effect h with ⟨n, rfl⟩ | ⟨slot, s, -, rfl⟩
    · exact ⟨rfl, List.Sublist.refl _⟩
    · have hstill : Still c (c.setBuffer slot.accum s) := Still.setBuffer _ s
      exact ⟨hstill.current, hstill.tiles ▸ List.Sublist.refl _⟩

/-! ## Consecutive tiles -/

/-- A tile is issued only if `can_issue` holds. -/
def Admitted (c : Core) : Act → Prop
  | .issue _ => c.canIssue
  | _ => True

instance (c : Core) : (a : Act) → Decidable (Admitted c a)
  | .issue _ => inferInstanceAs (Decidable (c.canIssue = true))
  | .cycle | .popFinishedTile | .popMemoryRequest | .pushMemoryResponse _ => isTrue trivial

/-- Tile `N` is issued in state `c₂`, and before it `P` in state `c₁`; `h₂` is what happens between. -/
structure Consecutive (h : List (Core × Act)) (c₁ : Core) (P : Tile) (h₂ : List (Core × Act))
    (c₂ : Core) (N : Tile) : Prop where
  split : ∃ h₁ h₃, h = h₁ ++ (c₁, .issue P) :: (h₂ ++ (c₂, .issue N) :: h₃)
  between : ∀ p ∈ h₂, p.2.issues = none

/-- `N` adds to the results of `P`. -/
def Continues (P N : Tile) : Prop :=
  N.accum ∧ N.layerId = P.layerId ∧ N.fusedOpId = P.fusedOpId

/-- A step flushes buffer `b` of the accumulator. -/
def flushesAccum (c : Core) (a : Act) (b : Nat) : Bool :=
  match a with
  | .issue op => c.flushes op true b
  | _ => false

def SameOp (t u : Tile) : Prop := t.layerId = u.layerId ∧ t.fusedOpId = u.fusedOpId

/-- Tiles that share an accumulator belong to one operation. -/
def SharedRightly (c : Core) : Prop :=
  c.tiles.Pairwise fun t u => t.accumSpadId = u.accumSpadId → SameOp t u

/-- A tile that continues the tile before it has that tile's accumulator, which has not been flushed
since, and tiles that run together share an accumulator only within one operation. -/
structure Continuous (h : List (Core × Act)) (c : Core) : Prop where
  kept : ∀ c₁ P h₂ c₂ N, Consecutive h c₁ P h₂ c₂ N → Continues P N →
    (c₂.assignBuffers N).accumSpadId = (c₁.assignBuffers P).accumSpadId ∧
      ∀ p ∈ h₂ ++ [(c₂, .issue N)], ¬ p.1.flushesAccum p.2 (c₁.assignBuffers P).accumSpadId
  shared : Machine.Always SharedRightly h c

/-- The accumulator `b` is there for `N`: the tile that is running has it and is of the same operation
(unless `N` is skipped and does not run), or no tile is running and it is buffer 0. -/
def Offers (c : Core) (b : Nat) (N : Tile) : Prop :=
  (∃ t, c.tiles = [t] ∧ t.accumSpadId = b ∧ (¬ N.skip → SameOp t N)) ∨ c.tiles = [] ∧ b = 0

/-- Each tile that continues the tile before it finds that tile's accumulator. -/
def HandedOver (h : List (Core × Act)) : Prop :=
  ∀ c₁ P h₂ c₂ N, Consecutive h c₁ P h₂ c₂ N → Continues P N →
    c₂.Offers (c₁.assignBuffers P).accumSpadId N

/-! ## One tile -/

theorem SharedRightly.of_sublist (h : SharedRightly c)
    (hsub : (d.tiles.map Tile.still).Sublist (c.tiles.map Tile.still)) : SharedRightly d := by
  have hstill : ∀ l : List Tile,
      (l.Pairwise fun t u => t.accumSpadId = u.accumSpadId → SameOp t u) ↔
      ((l.map Tile.still).Pairwise fun t u => t.accumSpadId = u.accumSpadId → SameOp t u) := by
    intro l
    rw [List.pairwise_map]
    rfl
  unfold SharedRightly at h ⊢
  rw [hstill] at h ⊢
  exact h.sublist hsub

/-- A tile that keeps an accumulator has the one that the core offers. -/
theorem offers_iff {N : Tile} {b : Nat} (hissue : c.canIssue) (hkeeps : c.keepsAccum N) :
    c.Offers b N ↔ (c.assignBuffers N).accumSpadId = b ∧
      (∀ t ∈ c.tiles, ¬ N.skip → SameOp t N) := by
  unfold Offers
  rcases assignBuffers_accumSpadId c N hissue with ⟨t, htiles, hb⟩ | ⟨htiles, hb⟩ <;>
    rw [if_pos hkeeps] at hb <;> rw [htiles, hb]
  · constructor
    · rintro (⟨u, hu, hb, hop⟩ | ⟨hnil, -⟩)
      · obtain rfl := List.singleton_inj.mp hu
        exact ⟨hb, fun v hv hskip => List.mem_singleton.mp hv ▸ hop hskip⟩
      · cases hnil
    · rintro ⟨hb, hop⟩
      exact .inl ⟨t, rfl, hb, hop t (List.mem_singleton_self t)⟩
  · constructor
    · rintro (⟨u, hu, -⟩ | ⟨-, rfl⟩)
      · cases hu
      · exact ⟨rfl, fun v hv => absurd hv List.not_mem_nil⟩
    · rintro ⟨rfl, -⟩
      exact .inr ⟨rfl, rfl⟩

/-- A new tile shares an accumulator rightly when it keeps none, or is of the operation of the tile
that is running. -/
theorem SharedRightly.issue {N : Tile} (h : SharedRightly c) (hissue : c.canIssue)
    (hop : c.keepsAccum N → ∀ t ∈ c.tiles, ¬ N.skip → SameOp t N) : SharedRightly (c.issue N) := by
  unfold SharedRightly
  rw [issue_tiles_eq]
  split
  · exact h
  · rename_i hskip
    rw [List.pairwise_append]
    refine ⟨h, List.pairwise_singleton _ _, fun t ht u hu hshare => ?_⟩
    obtain rfl := List.mem_singleton.mp hu
    by_cases hkeeps : c.keepsAccum N = true
    · exact hop hkeeps t ht hskip
    · exfalso
      rcases assignBuffers_accumSpadId c N hissue with ⟨t', htiles, hb⟩ | ⟨htiles, -⟩
      · rw [htiles, List.mem_singleton] at ht
        subst ht
        rw [if_neg hkeeps] at hb
        exact nextBuffer_ne _ (hb ▸ hshare).symm
      · rw [htiles] at ht
        cases ht

theorem issue_current (c : Core) (op : Tile) : (c.issue op).current = (op.layerId, op.fusedOpId) := by
  unfold issue
  by_cases hskip : op.skip = true
  · simp only [hskip, if_true]
    rfl
  · simp only [hskip]
    rfl

/-! ## Runs -/

section Runs

variable {s : Core} {h h₂ : List (Core × Act)} {c₁ : Core} {P : Tile}

/-- The core remembers the operation of the tile it was given last. -/
theorem current_after (run : Machine.Run (Machine.partialDet (step config)) s
      (h ++ (c₁, .issue P) :: h₂) c) (hbetween : ∀ p ∈ h₂, p.2.issues = none) :
    c.current = (P.layerId, P.fusedOpId) := by
  have hsnoc : h ++ (c₁, .issue P) :: h₂ = h ++ [(c₁, .issue P)] ++ h₂ := by simp
  obtain ⟨c', before, later⟩ := Machine.Run.rest (hsnoc ▸ run)
  obtain rfl : c₁.issue P = c' := Option.some.inj before.last.2
  refine Machine.Run.invariant_of (P := fun c => c.current = (P.layerId, P.fusedOpId))
    (C := fun _ a => a.issues = none) later (issue_current c₁ P) ?_
    fun p hp => hbetween p hp
  intro t a u ht ha hstep
  exact (step_still ha hstep).1.trans ht

theorem keepsAccum_iff {N : Tile} (hcurrent : c.current = (P.layerId, P.fusedOpId)) :
    c.keepsAccum N ↔ Continues P N := by
  obtain ⟨hlayer, hfused⟩ := Prod.mk.inj hcurrent
  unfold keepsAccum Continues
  rw [Bool.and_eq_true, Bool.and_eq_true, beq_iff_eq, beq_iff_eq, hlayer, hfused, and_assoc]
  constructor <;> rintro ⟨haccum, hl, hf⟩ <;> exact ⟨haccum, hl.symm, hf.symm⟩

/-- Before the first tile nothing runs. -/
theorem tiles_eq_nil (run : Machine.Run (Machine.partialDet (step config)) s h c)
    (hs : s.tiles = []) (hnone : ∀ p ∈ h, p.2.issues = none) : c.tiles = [] := by
  refine Machine.Run.invariant_of (P := fun c => c.tiles = []) (C := fun _ a => a.issues = none) run
    hs ?_ fun p hp => hnone p hp
  intro t a u ht ha hstep
  have hsub := (step_still ha hstep).2
  rw [ht] at hsub
  exact List.map_eq_nil_iff.mp (List.sublist_nil.mp hsub)

/-- The last tile that was issued. -/
theorem exists_last_issue (h : List (Core × Act)) :
    (∀ p ∈ h, p.2.issues = none) ∨
      ∃ h₁ c₁ P h₂, h = h₁ ++ (c₁, .issue P) :: h₂ ∧ ∀ p ∈ h₂, p.2.issues = none := by
  induction h using List.reverseRecOn with
  | nil => exact .inl fun p hp => absurd hp List.not_mem_nil
  | append_singleton h p ih =>
    obtain ⟨c, a⟩ := p
    cases ha : a.issues with
    | some op =>
      have hop : a = .issue op := by
        cases a with
        | issue op' =>
          obtain rfl := Option.some.inj ha
          rfl
        | _ => cases ha
      refine .inr ⟨h, c, op, [], by rw [hop], fun p hp => absurd hp List.not_mem_nil⟩
    | none =>
      rcases ih with hnone | ⟨h₁, c₁, P, h₂, rfl, hbetween⟩
      · left
        intro p hp
        rcases List.mem_append.mp hp with hp | hp
        · exact hnone p hp
        · obtain rfl := List.mem_singleton.mp hp
          exact ha
      · refine .inr ⟨h₁, c₁, P, h₂ ++ [(c, a)], by simp, fun p hp => ?_⟩
        rcases List.mem_append.mp hp with hp | hp
        · exact hbetween p hp
        · obtain rfl := List.mem_singleton.mp hp
          exact ha

theorem Consecutive.snoc {c₂ : Core} {N : Tile} {p : Core × Act}
    (hcons : Consecutive h c₁ P h₂ c₂ N) : Consecutive (h ++ [p]) c₁ P h₂ c₂ N := by
  obtain ⟨h₁, h₃, rfl⟩ := hcons.split
  exact ⟨⟨h₁, h₃ ++ [p], by simp⟩, hcons.between⟩

/-- Where a tile is issued next, the core may issue, and knows the operation of the tile before it. -/
theorem Consecutive.state {c₂ : Core} {N : Tile} (hcons : Consecutive h c₁ P h₂ c₂ N)
    (run : Machine.Run (Machine.partialDet (step config)) s h c)
    (hadm : Machine.EachStep Admitted h) :
    c₂.canIssue ∧ (c₂.keepsAccum N ↔ Continues P N) := by
  obtain ⟨h₁, h₃, rfl⟩ := hcons.split
  refine ⟨hadm (c₂, .issue N) (by simp), keepsAccum_iff ?_⟩
  have hassoc : h₁ ++ (c₁, .issue P) :: (h₂ ++ (c₂, .issue N) :: h₃) =
      (h₁ ++ (c₁, .issue P) :: h₂) ++ (c₂, .issue N) :: h₃ := by simp
  rw [hassoc] at run
  exact current_after run.split.1 hcons.between

end Runs

/-- The core hands the accumulators on rightly exactly in the runs in which each tile that continues
the tile before it finds that tile's accumulator. -/
theorem Run.continuous_iff {id layerId fusedOpId : Nat} {h : List (Core × Act)}
    (run : Run config id layerId fusedOpId h c) (hadm : Machine.EachStep Admitted h) :
    Continuous h c ↔ HandedOver h := by
  constructor
  · intro hright c₁ P h₂ c₂ N hcons hcont
    obtain ⟨hissue, hkeeps⟩ := hcons.state run hadm
    obtain ⟨hb, -⟩ := hright.kept c₁ P h₂ c₂ N hcons hcont
    have hkept := hkeeps.mpr hcont
    refine (offers_iff hissue hkept).mpr ⟨hb, fun t ht hskip => ?_⟩
    obtain ⟨h₁, h₃, hsplit⟩ := hcons.split
    have hassoc : h = (h₁ ++ (c₁, .issue P) :: h₂) ++ (c₂, .issue N) :: h₃ := by
      rw [hsplit]
      simp
    obtain ⟨d, hd, hshared⟩ := Machine.Run.always_after (hassoc ▸ run) (hassoc ▸ hright.shared)
    obtain rfl : c₂.issue N = d := Option.some.inj hd
    unfold SharedRightly at hshared
    rw [issue_tiles_eq, if_neg hskip, List.pairwise_append] at hshared
    refine hshared.2.2 t ht (c₂.assignBuffers N) (List.mem_singleton_self _) ?_
    rcases assignBuffers_accumSpadId c₂ N hissue with ⟨t', htiles, hb⟩ | ⟨htiles, -⟩
    · rw [htiles, List.mem_singleton] at ht
      rw [hb, if_pos hkept, ht]
    · rw [htiles] at ht
      cases ht
  · intro hhanded
    refine ⟨fun c₁ P h₂ c₂ N hcons hcont => ?_, ?_⟩
    · obtain ⟨hissue, hkeeps⟩ := hcons.state run hadm
      have hkept := hkeeps.mpr hcont
      obtain ⟨hb, -⟩ := (offers_iff hissue hkept).mp (hhanded c₁ P h₂ c₂ N hcons hcont)
      refine ⟨hb, fun p hp => ?_⟩
      rcases List.mem_append.mp hp with hp | hp
      · have hnone := hcons.between p hp
        cases ha : p.2 with
        | issue op =>
          rw [ha] at hnone
          cases hnone
        | _ => exact Bool.false_ne_true
      · obtain rfl := List.mem_singleton.mp hp
        simp [flushesAccum, flushes, hkept]
    · induction run with
      | nil => exact ⟨fun p hp => absurd hp List.not_mem_nil, List.Pairwise.nil⟩
      | @snoc h t a u run hstep ih =>
        obtain ⟨hbefore, ha⟩ := Machine.EachStep.snoc_iff.mp hadm
        have halways := ih hbefore fun c₁ P h₂ c₂ N hcons => hhanded c₁ P h₂ c₂ N hcons.snoc
        refine Machine.Always.snoc_iff.mpr ⟨halways, ?_⟩
        cases hact : a.issues with
        | none => exact halways.2.of_sublist (step_still hact hstep).2
        | some N =>
          obtain rfl : a = .issue N := by
            cases a with
            | issue op => exact congrArg Act.issue (Option.some.inj hact)
            | _ => cases hact
          obtain rfl : t.issue N = u := Option.some.inj hstep
          refine halways.2.issue ha fun hkeeps => ?_
          rcases exists_last_issue h with hnone | ⟨h₁, c₁, P, h₂, rfl, hbetween⟩
          · rw [tiles_eq_nil run rfl hnone]
            exact fun v hv => absurd hv List.not_mem_nil
          · have hcons : Consecutive (h₁ ++ (c₁, .issue P) :: h₂ ++ [(t, .issue N)]) c₁ P h₂ t N :=
              ⟨⟨h₁, [], by simp⟩, hbetween⟩
            have hcont := (keepsAccum_iff (current_after run hbetween)).mp hkeeps
            exact ((offers_iff ha hkeeps).mp (hhanded c₁ P h₂ t N hcons hcont)).2

/-! ## An idle core forgets its accumulator -/

/-- A core that has had nothing to do for `n` cycles. -/
def idleFor (n : Nat) : Core := { init smallArray 0 0 0 with coreCycle := n }

theorem idleFor_cycle (n : Nat) : step smallArray (idleFor n) .cycle = some (idleFor (n + 1)) := rfl

theorem idleFor_run (n : Nat) : ∃ h : List (Core × Act),
    (∀ p ∈ h, p.2 = .cycle) ∧ Run smallArray 0 0 0 h (idleFor n) := by
  induction n with
  | zero => exact ⟨[], fun p hp => absurd hp List.not_mem_nil, .nil⟩
  | succ n ih =>
    obtain ⟨h, hcycles, run⟩ := ih
    have run' : Run smallArray 0 0 0 (h ++ [(idleFor n, .cycle)]) (idleFor (n + 1)) :=
      Machine.Run.snoc run (idleFor_cycle n)
    refine ⟨h ++ [(idleFor n, .cycle)], fun p hp => ?_, run'⟩
    rcases List.mem_append.mp hp with hp | hp
    · exact hcycles p hp
    · obtain rfl := List.mem_singleton.mp hp
      rfl

/-- A tile that continues `preloadTile`. -/
def nextTile : Tile := { preloadTile with ptr := 1, accum := true }

/-- The first tile has accumulator 1 and is retired in cycle 8000; the tile that continues it gets
accumulator 0. -/
theorem idleCore_forgets :
    ¬ ∀ (config : SimulationConfig) (id layerId fusedOpId : Nat) (h : List (Core × Act)) (c : Core),
      Run config id layerId fusedOpId h c → Machine.EachStep Admitted h → Continuous h c := by
  intro hall
  obtain ⟨h₁, hidle, run₁⟩ := idleFor_run 7950
  have hbuffers : ((List.replicate 50 Act.cycle).foldlM (step smallArray)
      ((idleFor 7950).issue preloadTile)).map (fun c => (c.canIssue,
        (c.assignBuffers nextTile).accumSpadId, ((idleFor 7950).assignBuffers preloadTile).accumSpadId)) =
      some (true, 0, 1) := by
    decide +kernel
  obtain ⟨c₂, hc₂, hbuffers⟩ := Option.map_eq_some_iff.mp hbuffers
  obtain ⟨hissue, hbuffers⟩ := Prod.mk.inj hbuffers
  obtain ⟨hnext, hprev⟩ := Prod.mk.inj hbuffers
  obtain ⟨h₂, hacts, run₂⟩ := Machine.Run.of_foldlM hc₂
  have hcycles : ∀ p ∈ h₂, p.2 = .cycle := fun p hp =>
    List.eq_of_mem_replicate (hacts ▸ List.mem_map_of_mem (f := Prod.snd) hp)
  have hstep₁ : step smallArray (idleFor 7950) (.issue preloadTile) =
      some ((idleFor 7950).issue preloadTile) := rfl
  have hstep₂ : step smallArray c₂ (.issue nextTile) = some (c₂.issue nextTile) := rfl
  have run : Run smallArray 0 0 0 (h₁ ++ [(idleFor 7950, .issue preloadTile)] ++ h₂ ++
      [(c₂, .issue nextTile)]) (c₂.issue nextTile) :=
    ((Machine.Run.snoc run₁ hstep₁).append run₂).snoc hstep₂
  have hadm : Machine.EachStep Admitted (h₁ ++ [(idleFor 7950, .issue preloadTile)] ++ h₂ ++
      [(c₂, .issue nextTile)]) := by
    intro p hp
    simp only [List.mem_append, List.mem_singleton] at hp
    rcases hp with ((hp | rfl) | hp) | rfl
    · rw [hidle p hp]
      trivial
    · exact rfl
    · rw [hcycles p hp]
      trivial
    · exact hissue
  have hcons : Consecutive (h₁ ++ [(idleFor 7950, .issue preloadTile)] ++ h₂ ++
      [(c₂, .issue nextTile)]) (idleFor 7950) preloadTile h₂ c₂ nextTile :=
    ⟨⟨h₁, [], by simp⟩, fun p hp => by rw [hcycles p hp]; rfl⟩
  have hkept := ((hall _ _ _ _ _ _ run hadm).kept _ _ _ _ _ hcons ⟨rfl, rfl, rfl⟩).1
  rw [hnext, hprev] at hkept
  exact absurd hkept (by decide)

/-- Two tiles of one chain that overlap. -/
def overlapCalls : List Act := [.issue preloadTile, .cycle, .issue nextTile]

/-- The criterion for a run in which the tile before is still running. -/
theorem Run.continuous_iff_overlap : ∃ (h : List (Core × Act)) (c : Core),
    h.map Prod.snd = overlapCalls ∧ Run smallArray 0 0 0 h c ∧ (Continuous h c ↔ HandedOver h) := by
  have hsome : (overlapCalls.foldlM (fun c a => if Admitted c a then step smallArray c a else none)
      (init smallArray 0 0 0)).isSome := by
    decide +kernel
  obtain ⟨c, hc⟩ := Option.isSome_iff_exists.mp hsome
  obtain ⟨h, hacts, run, hadm⟩ := Machine.Run.of_guarded hc
  have run' : Run smallArray 0 0 0 h c := run
  exact ⟨h, c, hacts, run', Run.continuous_iff run' hadm⟩

end Core

end OnnxSim
