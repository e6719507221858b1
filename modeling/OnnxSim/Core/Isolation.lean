import OnnxSim.Core.Execution

/-!
# Whose entries a scratchpad buffer holds

Two tiles can run at a time, and each loads into a buffer of the scratchpad of its own. Nothing records
that: `Core::issue` gives a new tile the buffer that the only running tile does not have, and flushes it.
An entry comes into being when a load or a compute instruction is executed (`Core.allocations`), and the
tile of that instruction is running then (`Core.AtHome`), so the entries of a buffer are those of the
tile that has it (`Core.Run.isolated`).
-/

namespace OnnxSim

namespace Core

variable {config : SimulationConfig} {c d e : Core}

/-- The instructions that allocate their destinations in the next call of `cycle`: the load that waits,
and the compute instruction that waits, unless its destination is there already. -/
def allocations (config : SimulationConfig) (c : Core) : List Instruction :=
  c.ldInstQueue.take 1 ++ match beforeExecute config c with
    | none => []
    | some d => (d.exInstQueue.take 1).filter fun x =>
        canIssueCompute config d x && (d.entry x.slot).isNone

/-! ## New entries -/

/-- `d` has the entries of `c` and those at `slots`. -/
def Adds (slots : List Slot) (c d : Core) : Prop :=
  ∀ slot, d.entry slot ≠ none ↔ c.entry slot ≠ none ∨ slot ∈ slots

namespace Adds

variable {slots slots' : List Slot}

theorem of_entry (h : d.entry = c.entry) : Adds [] c d := by
  intro slot
  rw [h]
  simp

theorem of_buffers (hspad : d.spad = c.spad) (hacc : d.accSpad = c.accSpad) : Adds [] c d := by
  refine of_entry (funext fun slot => ?_)
  unfold entry buffer
  cases slot.accum
  · rw [hspad]
  · rw [hacc]

theorem trans (h₁ : Adds slots c d) (h₂ : Adds slots' d e) : Adds (slots ++ slots') c e := by
  intro slot
  rw [h₂ slot, h₁ slot, List.mem_append, or_assoc]

/-- An entry that is there is written. -/
theorem written {slot : Slot} {v v' : SramEntry} (hv : c.entry slot = some v)
    (h : d.entry = Function.update c.entry slot (some v')) : Adds [] c d := by
  intro other
  rw [h]
  by_cases hother : other = slot
  · subst hother
    simp [hv]
  · simp [hother]

theorem allocated {slot : Slot} {v : SramEntry}
    (h : d.entry = Function.update c.entry slot (some v)) : Adds [slot] c d := by
  intro other
  rw [h]
  by_cases hother : other = slot
  · subst hother
    simp
  · simp [hother]

end Adds

theorem finishPipelines_adds (h : c.finishPipelines = some d) : Adds [] c d := by
  obtain ⟨e, he, hd⟩ := Option.bind_eq_some_iff.mp h
  have hfilled : ∀ {c d : Core} {x : Instruction} {s : Sram},
      (c.buffer x.slot.accum).fill x.slot.addr x.slot.bufferId = some s →
      d.spad = (c.setBuffer x.slot.accum s).spad → d.accSpad = (c.setBuffer x.slot.accum s).accSpad →
      Adds [] c d := by
    intro c d x s hs hspad hacc
    obtain ⟨v, hv, hentry⟩ := entry_fill hs
    exact (Adds.written hv hentry).trans (Adds.of_buffers hspad hacc)
  have hcompute : Adds [] c e := by
    rcases finishComputePipeline_effect he with rfl | ⟨x, rest, s, fin, -, hs, rfl⟩
    · exact Adds.of_entry rfl
    · exact hfilled hs rfl rfl
  have hvector : Adds [] e d := by
    rcases finishVectorPipeline_effect hd with rfl | ⟨x, rest, s, fin, -, hs, rfl⟩
    · exact Adds.of_entry rfl
    · exact hfilled hs rfl rfl
  exact hcompute.trans hvector

theorem handleLdInstQueue_adds (h : handleLdInstQueue config c = some d) :
    Adds ((c.ldInstQueue.take 1).map (·.slot)) c d := by
  rcases handleLdInstQueue_effect h with ⟨rfl, hq⟩ | ⟨x, rest, s, hq, -, hs, rfl⟩
  · rw [hq]
    exact Adds.of_entry rfl
  · rw [hq]
    obtain ⟨-, hentry⟩ := entry_prefetch hs
    exact (Adds.allocated hentry).trans (Adds.of_buffers rfl rfl)

theorem allocDest_adds {x : Instruction} (h : c.allocDest x = some d) :
    Adds (if c.entry x.slot = none then [x.slot] else []) c d := by
  obtain ⟨s, hs, h⟩ := Option.bind_eq_some_iff.mp h
  obtain rfl := Option.some.inj h
  unfold allocIn at hs
  split at hs
  · have hcount : (c.buffer x.slot.accum).countUp x.slot.addr x.slot.bufferId = some s := hs
    obtain ⟨v, hv, hentry⟩ := entry_countUp hcount
    rw [if_neg (by rw [hv]; exact Option.some_ne_none v)]
    exact Adds.written hv hentry
  · have hprefetch : (c.buffer x.slot.accum).prefetch x.slot.addr x.slot.bufferId x.size
        (if x.zeroInit then x.size else 1) = some s := hs
    obtain ⟨hnone, hentry⟩ := entry_prefetch hprefetch
    rw [if_pos hnone]
    exact Adds.allocated hentry

theorem handleExInstQueue_adds (h : handleExInstQueue config c = some d) :
    Adds (((c.exInstQueue.take 1).filter fun x =>
      canIssueCompute config c x && (c.entry x.slot).isNone).map (·.slot)) c d := by
  have hfront : ∀ {x : Instruction} {rest : List Instruction} {e : Core},
      c.exInstQueue = x :: rest → canIssueCompute config c x → c.allocDest x = some e →
      d.spad = e.spad → d.accSpad = e.accSpad →
      Adds (((c.exInstQueue.take 1).filter fun x =>
        canIssueCompute config c x && (c.entry x.slot).isNone).map (·.slot)) c d := by
    intro x rest e hq hready halloc hspad hacc
    have hadds := (allocDest_adds halloc).trans (Adds.of_buffers hspad hacc)
    rw [List.append_nil] at hadds
    rw [hq, List.take_succ_cons, List.take_zero, List.filter_singleton, hready, Bool.true_and]
    cases hentry : c.entry x.slot with
    | none =>
      rw [hentry, if_pos rfl] at hadds
      exact hadds
    | some v =>
      rw [hentry, if_neg (Option.some_ne_none v)] at hadds
      exact hadds
  cases handleExInstQueue_executes h with
  | wait blocked =>
    cases hq : c.exInstQueue with
    | nil => exact Adds.of_entry rfl
    | cons x rest =>
      have hblocked : canIssueCompute config c x = false :=
        Bool.eq_false_iff.mpr (blocked x rest hq)
      rw [List.take_succ_cons, List.take_zero, List.filter_singleton, hblocked, Bool.false_and]
      exact Adds.of_entry rfl
  | gemm queue ready isGemm alloc => exact hfront queue ready alloc rfl rfl
  | vector queue ready isGemm alloc => exact hfront queue ready alloc rfl rfl

theorem handleStInstQueue_adds (h : handleStInstQueue config c = some d) : Adds [] c d := by
  rcases handleStInstQueue_effect h with ⟨rfl, -⟩ | ⟨x, rest, -, -, rfl⟩ |
    ⟨x, rest, n, fin, -, -, rfl⟩ <;> exact Adds.of_buffers rfl rfl

theorem issueInstructions_adds (h : issueInstructions config c = some d) : Adds [] c d := by
  unfold issueInstructions at h
  have hbuffers : d.spad = c.spad ∧ d.accSpad = c.accSpad := by
    refine issueFrom_induction (P := fun d => d.spad = c.spad ∧ d.accSpad = c.accSpad) ?_ ?_ ?_ h
    · intro e i t inst insts he _ _
      exact he
    · intro e i t inst insts q he _ _ hq
      cases hq <;> exact he
    · exact ⟨rfl, rfl⟩
  exact Adds.of_buffers hbuffers.1 hbuffers.2

/-- The entries after a call of `cycle` are those before it and the ones allocated in it. -/
theorem cycle_adds (h : cycle config c = some d) :
    Adds ((allocations config c).map (·.slot)) c d := by
  obtain ⟨f, hf, h⟩ := Option.bind_eq_some_iff.mp h
  obtain rfl := Option.some.inj h
  obtain ⟨e, he, hissue⟩ := beforeRetirement_eq_some hf
  rw [handlePipelines_eq] at he
  obtain ⟨e₁, h₁, he⟩ := Option.bind_eq_some_iff.mp he
  obtain ⟨e₂, h₂, h₃⟩ := Option.bind_eq_some_iff.mp he
  have hload : Adds ((c.ldInstQueue.take 1).map (·.slot)) c e₁ := by
    have hbefore := h₁
    rw [beforeExecute_eq] at hbefore
    obtain ⟨e₀, h₀, hld⟩ := Option.bind_eq_some_iff.mp hbefore
    have hadds := (finishPipelines_adds h₀).trans (handleLdInstQueue_adds hld)
    rwa [List.nil_append, (finishPipelines_queues h₀).1] at hadds
  have hretire : Adds [] f f.retire := by
    rcases retire_cases f with hr | ⟨i, t, -, -, -, hr⟩ <;> rw [hr]
    · exact Adds.of_entry rfl
    · exact Adds.of_buffers rfl rfl
  have hrest : Adds [] e₂ f.retire :=
    ((handleStInstQueue_adds h₃).trans (issueInstructions_adds hissue)).trans hretire
  have hall := (hload.trans (handleExInstQueue_adds h₂)).trans hrest
  unfold allocations
  rw [h₁, List.map_append]
  rwa [List.append_nil] at hall

/-! ## Runs -/

/-- The entry that is in the slot now was allocated in a call of `cycle` by an instruction of the tile
at `p`, which was running; since then the entry has been there, and no tile has been issued at that
address. -/
def AllocatedBy (config : SimulationConfig) (h : List (Core × Act)) (slot : Slot) (p : TilePtr) : Prop :=
  ∃ h₁ c₁ h₂ x, h = h₁ ++ (c₁, .cycle) :: h₂ ∧ c₁.entry slot = none ∧ x ∈ allocations config c₁ ∧
    x.slot = slot ∧ x.owner = p ∧ (∃ t ∈ c₁.tiles, t.ptr = p) ∧
    ∀ q ∈ h₂, q.1.entry slot ≠ none ∧ ∀ op, q.2.issues = some op → op.ptr ≠ p

/-- Each running tile has a scratchpad buffer of its own, and the entries there are its own. -/
structure Apart (config : SimulationConfig) (h : List (Core × Act)) (c : Core) : Prop where
  distinct : (c.tiles.map (·.spadId)).Nodup
  own : ∀ t ∈ c.tiles, ∀ addr, c.entry ⟨false, t.spadId, addr⟩ ≠ none →
    AllocatedBy config h ⟨false, t.spadId, addr⟩ t.ptr

/-- The running tiles do not disturb each other's buffers, and a tile that is issued does not disturb
theirs. -/
structure Isolated (config : SimulationConfig) (h : List (Core × Act)) (c : Core) : Prop
    extends Apart config h c where
  spared : ∀ op, c.canIssue → ∀ t ∈ c.tiles,
    ¬ c.flushes op false t.spadId ∧ ¬ c.flushes op true t.accumSpadId

theorem AllocatedBy.snoc {h : List (Core × Act)} {slot : Slot} {p : TilePtr} {a : Act}
    (hby : AllocatedBy config h slot p) (hentry : c.entry slot ≠ none)
    (hissue : ∀ op, a.issues = some op → op.ptr ≠ p) : AllocatedBy config (h ++ [(c, a)]) slot p := by
  obtain ⟨h₁, c₁, h₂, x, rfl, hnone, hx, hslot, howner, hruns, hsince⟩ := hby
  refine ⟨h₁, c₁, h₂ ++ [(c, a)], x, by simp, hnone, hx, hslot, howner, hruns, fun q hq => ?_⟩
  rcases List.mem_append.mp hq with hq | hq
  · exact hsince q hq
  · obtain rfl := List.mem_singleton.mp hq
    exact ⟨hentry, hissue⟩

theorem Apart.spadId_inj {h : List (Core × Act)} (hc : Apart config h c) {t u : Tile}
    (ht : t ∈ c.tiles) (hu : u ∈ c.tiles) (heq : t.spadId = u.spadId) : t = u :=
  List.inj_on_of_nodup_map hc.distinct ht hu heq

/-- The tiles that are left were running before, with the same buffers. -/
theorem mem_of_still (hsub : (d.tiles.map Tile.still).Sublist (c.tiles.map Tile.still)) {t : Tile}
    (ht : t ∈ d.tiles) : ∃ u ∈ c.tiles, u.ptr = t.ptr ∧ u.spadId = t.spadId := by
  obtain ⟨u, hu, hstill⟩ := List.mem_map.mp (hsub.subset (List.mem_map_of_mem ht))
  have hptr : u.still.ptr = t.still.ptr := by rw [hstill]
  have hspad : u.still.spadId = t.still.spadId := by rw [hstill]
  exact ⟨u, hu, hptr, hspad⟩

theorem spadIds_of_still (hsub : (d.tiles.map Tile.still).Sublist (c.tiles.map Tile.still)) :
    (d.tiles.map (·.spadId)).Sublist (c.tiles.map (·.spadId)) := by
  have hmap := hsub.map Tile.spadId
  rwa [List.map_map, List.map_map] at hmap

/-- An instruction that allocates in a call of `cycle` waits before it. -/
theorem mem_inHand_of_allocations {x : Instruction} (hx : x ∈ allocations config c) :
    x ∈ c.inHand := by
  unfold allocations at hx
  unfold inHand
  rcases List.mem_append.mp hx with hx | hx
  · exact List.mem_append_left _ (List.mem_append_left _ (List.mem_of_mem_take hx))
  · split at hx
    · cases hx
    · rename_i d hd
      rw [beforeExecute_eq] at hd
      obtain ⟨e, he, hd⟩ := Option.bind_eq_some_iff.mp hd
      have hqueue : d.exInstQueue = c.exInstQueue :=
        (handleLdInstQueue_pipes hd).exInstQueue.trans (finishPipelines_queues he).2.1
      rw [← hqueue]
      exact List.mem_append_left _
        (List.mem_append_right _ (List.mem_of_mem_take (List.mem_filter.mp hx).1))

/-- A step that issues nothing and allocates `slots`. -/
theorem Apart.still {h : List (Core × Act)} {a : Act} {slots : List Slot} (hc : Apart config h c)
    (ha : a.issues = none) (hd : step config c a = some d) (hadds : Adds slots c d)
    (hnew : ∀ t ∈ c.tiles, ∀ addr, c.entry ⟨false, t.spadId, addr⟩ = none →
      ⟨false, t.spadId, addr⟩ ∈ slots → AllocatedBy config (h ++ [(c, a)]) ⟨false, t.spadId, addr⟩ t.ptr) :
    Apart config (h ++ [(c, a)]) d := by
  obtain ⟨-, hsub⟩ := step_still ha hd
  refine ⟨hc.distinct.sublist (spadIds_of_still hsub), fun t ht addr hentry => ?_⟩
  obtain ⟨u, hu, hptr, hspad⟩ := mem_of_still hsub ht
  rw [← hspad] at hentry ⊢
  rw [← hptr]
  by_cases hold : c.entry ⟨false, u.spadId, addr⟩ = none
  · rcases (hadds _).mp hentry with hne | hslot
    · exact absurd hold hne
    · exact hnew u hu addr hold hslot
  · refine (hc.own u hu addr hold).snoc hold fun op hop => ?_
    rw [ha] at hop
    cases hop

theorem Apart.step {h : List (Core × Act)} {a : Act} (hc : Apart config h c)
    (hsound : Sound config c) (ha : Proper c a) (hd : step config c a = some d) :
    Apart config (h ++ [(c, a)]) d := by
  cases a with
  | issue op =>
    obtain rfl := Option.some.inj hd
    have hop : Fresh c op := ha
    -- the tiles that run keep their entries, and the buffer of the new one is empty
    have hkept : ∀ t ∈ c.tiles, ∀ addr, (c.issue op).entry ⟨false, t.spadId, addr⟩ ≠ none →
        AllocatedBy config (h ++ [(c, .issue op)]) ⟨false, t.spadId, addr⟩ t.ptr := by
      intro t ht addr hentry
      rw [issue_entry, (flushes_of_mem op hop.canIssue ht).1, if_neg Bool.false_ne_true] at hentry
      refine (hc.own t ht addr hentry).snoc hentry fun op' hop' => ?_
      obtain rfl := Option.some.inj hop'
      exact (hop.apart t ht).symm
    by_cases hskip : op.skip = true
    · refine ⟨?_, ?_⟩
      · rw [issue_tiles_eq, if_pos hskip]
        exact hc.distinct
      · rw [issue_tiles_eq, if_pos hskip]
        exact hkept
    · refine ⟨?_, ?_⟩
      · rw [issue_tiles_eq, if_neg hskip, List.map_append, List.nodup_append]
        refine ⟨hc.distinct, List.nodup_singleton _, fun b hb b' hb' => ?_⟩
        obtain ⟨t, ht, rfl⟩ := List.mem_map.mp hb
        obtain rfl := List.mem_singleton.mp hb'
        exact (assignBuffers_spadId_ne op hop.canIssue ht).symm
      · rw [issue_tiles_eq, if_neg hskip]
        intro t ht addr hentry
        rcases List.mem_append.mp ht with ht | ht
        · exact hkept t ht addr hentry
        · obtain rfl := List.mem_singleton.mp ht
          rw [issue_entry, if_pos (by simp [flushes])] at hentry
          exact absurd rfl hentry
  | cycle =>
    refine hc.still rfl hd (cycle_adds hd) fun t ht addr hnone hslot => ?_
    obtain ⟨x, hx, hslot⟩ := List.mem_map.mp hslot
    obtain ⟨u, hu, howner, hfrom, -⟩ := hsound.home x (mem_inHand_of_allocations hx)
    -- the instruction has the buffer of its own tile, and so has `t`
    have hacc : x.toAccum = false := congrArg Slot.accum hslot
    have hbuffer : x.spadId = t.spadId := by
      have hid : x.bufferId = t.spadId := congrArg Slot.bufferId hslot
      unfold Instruction.bufferId at hid
      rwa [hacc, if_neg Bool.false_ne_true] at hid
    obtain rfl := hc.spadId_inj hu ht (hfrom.1.symm.trans hbuffer)
    exact ⟨h, c, [], x, rfl, hnone, hx, hslot, howner, ⟨u, hu, rfl⟩,
      fun q hq => absurd hq List.not_mem_nil⟩
  | popFinishedTile =>
    have hd' := Option.some.inj hd
    exact hc.still rfl hd (Adds.of_buffers (hd' ▸ rfl) (hd' ▸ rfl))
      fun t ht addr _ hslot => absurd hslot List.not_mem_nil
  | popMemoryRequest =>
    obtain ⟨⟨m, e⟩, he, hd'⟩ := Option.map_eq_some_iff.mp hd
    have heq := (popMemoryRequest_eq_some he).2
    refine hc.still rfl hd (Adds.of_buffers ?_ ?_) fun t ht addr _ hslot => absurd hslot List.not_mem_nil
    · rw [← hd', heq]
    · rw [← hd', heq]
  | pushMemoryResponse response =>
    have hadds : Adds [] c d := by
      rcases pushMemoryResponse_effect hd with ⟨n, rfl⟩ | ⟨slot, s, hs, rfl⟩
      · exact Adds.of_buffers rfl rfl
      · obtain ⟨v, hv, hentry⟩ := entry_fill hs
        exact Adds.written hv hentry
    exact hc.still rfl hd hadds fun t ht addr _ hslot => absurd hslot List.not_mem_nil

/-- In every run, the running tiles have different buffers, `Core::issue` flushes none of them, and each
entry of such a buffer is there for its own tile. -/
theorem Run.isolated {id layerId fusedOpId : Nat} {h : List (Core × Act)}
    (run : Run config id layerId fusedOpId h c) (hproper : Machine.EachStep Proper h) :
    Isolated config h c := by
  have hapart : Apart config h c := by
    induction run with
    | nil => exact ⟨List.nodup_nil, fun t ht => absurd ht List.not_mem_nil⟩
    | snoc run hstep ih =>
      obtain ⟨hbefore, ha⟩ := Machine.EachStep.snoc_iff.mp hproper
      exact (ih hbefore).step (Run.sound run hbefore) ha hstep
  refine ⟨hapart, fun op hissue t ht => ?_⟩
  obtain ⟨hspad, hacc⟩ := flushes_of_mem op hissue ht
  rw [hspad, hacc]
  exact ⟨Bool.false_ne_true, Bool.false_ne_true⟩

/-- Two tiles run, and one has been loaded into. -/
def sharedCalls : List Act := waitingCalls ++ [.cycle]

theorem Run.isolated_shared : ∃ (h : List (Core × Act)) (c : Core),
    h.map Prod.snd = sharedCalls ∧ Run smallArray 0 0 0 h c ∧
      (∃ t ∈ c.tiles, c.entry ⟨false, t.spadId, 0⟩ ≠ none) ∧ Isolated smallArray h c := by
  have hloaded : (sharedCalls.foldlM (fun c a => if Proper c a then step smallArray c a else none)
      (init smallArray 0 0 0)).map (fun c => decide
        (∃ t ∈ c.tiles, c.entry ⟨false, t.spadId, 0⟩ ≠ none)) = some true := by
    decide +kernel
  obtain ⟨c, hc, hloaded⟩ := Option.map_eq_some_iff.mp hloaded
  obtain ⟨h, hacts, run, hproper⟩ := Machine.Run.of_guarded hc
  have run' : Run smallArray 0 0 0 h c := run
  exact ⟨h, c, hacts, run', of_decide_eq_true hloaded, Run.isolated run' hproper⟩

end Core

end OnnxSim
