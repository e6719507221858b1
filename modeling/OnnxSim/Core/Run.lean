import OnnxSim.Lib.Machine
import OnnxSim.Core

/-!
# Runs of a core

A core is driven from outside: the scheduler issues tiles and collects finished ones, the
interconnect takes requests and delivers responses, and the clock calls `cycle`. Any order of these
calls is a run.

A call of `cycle` is a sequence of stages. Most of them touch the scratchpads, the pipelines and the
flags of the tiles only (`Frame`); the others have a lemma that says what they do.
-/

namespace OnnxSim

/-- The tile without its `inst_finished` flag. -/
def Tile.unmarked (t : Tile) : Tile := { t with instFinished := false }

@[simp] theorem Tile.finishAt_unmarked (p : TilePtr) (t : Tile) :
    (t.finishAt p).unmarked = t.unmarked := by
  unfold Tile.finishAt
  split <;> rfl

namespace Core

inductive Act
  | issue (op : Tile)
  | cycle
  | popFinishedTile
  | popMemoryRequest
  | pushMemoryResponse (response : MemoryAccess)

def step (config : SimulationConfig) (c : Core) : Act → Option Core
  | .issue op => some (c.issue op)
  | .cycle => cycle config c
  | .popFinishedTile => some c.popFinishedTile.2
  | .popMemoryRequest => c.popMemoryRequest.map Prod.snd
  | .pushMemoryResponse response => c.pushMemoryResponse response

/-- The runs of core `id` under `config`, whatever the two uninitialised fields hold. -/
def Run (config : SimulationConfig) (id layerId fusedOpId : Nat) (h : List (Core × Act))
    (c : Core) : Prop :=
  Machine.Run (Machine.partialDet (step config)) (init config id layerId fusedOpId) h c

/-! ## Frames -/

/-- `c'` differs from `c` in scratchpads, pipelines, the execute queue and flags of tiles only. -/
structure Frame (c c' : Core) : Prop where
  id : c'.id = c.id
  coreCycle : c'.coreCycle = c.coreCycle
  tiles : c'.tiles.map Tile.unmarked = c.tiles.map Tile.unmarked
  finishedTiles : c'.finishedTiles.map Tile.unmarked = c.finishedTiles.map Tile.unmarked
  ldInstQueue : c'.ldInstQueue = c.ldInstQueue
  stInstQueue : c'.stInstQueue = c.stInstQueue
  requestQueue : c'.requestQueue = c.requestQueue
  nextAccessId : c'.nextAccessId = c.nextAccessId
  transfers : c'.transfers = c.transfers
  dataWidth : ∀ a, (c'.buffer a).dataWidth = (c.buffer a).dataWidth

namespace Frame

variable {c d e : Core}

theorem refl (c : Core) : Frame c c := ⟨rfl, rfl, rfl, rfl, rfl, rfl, rfl, rfl, rfl, fun _ => rfl⟩

theorem trans (h₁ : Frame c d) (h₂ : Frame d e) : Frame c e where
  id := h₂.id.trans h₁.id
  coreCycle := h₂.coreCycle.trans h₁.coreCycle
  tiles := h₂.tiles.trans h₁.tiles
  finishedTiles := h₂.finishedTiles.trans h₁.finishedTiles
  ldInstQueue := h₂.ldInstQueue.trans h₁.ldInstQueue
  stInstQueue := h₂.stInstQueue.trans h₁.stInstQueue
  requestQueue := h₂.requestQueue.trans h₁.requestQueue
  nextAccessId := h₂.nextAccessId.trans h₁.nextAccessId
  transfers := h₂.transfers.trans h₁.transfers
  dataWidth := fun a => (h₂.dataWidth a).trans (h₁.dataWidth a)

theorem setBuffer {a : Bool} {s : Sram} (hs : s.dataWidth = (c.buffer a).dataWidth) :
    Frame c (c.setBuffer a s) := by
  have hwidth : ∀ b, ((c.setBuffer a s).buffer b).dataWidth = (c.buffer b).dataWidth := by
    intro b
    cases a <;> cases b <;> first | exact hs | rfl
  cases a <;> exact ⟨rfl, rfl, rfl, rfl, rfl, rfl, rfl, rfl, rfl, hwidth⟩

theorem pipelines (compute vector ex : List Instruction) :
    Frame c { c with
      computePipeline := compute, vectorPipeline := vector, exInstQueue := ex } :=
  ⟨rfl, rfl, rfl, rfl, rfl, rfl, rfl, rfl, rfl, fun a => by cases a <;> rfl⟩

theorem waiting (n : Nat) : Frame c { c with waitingWriteReqs := n } :=
  ⟨rfl, rfl, rfl, rfl, rfl, rfl, rfl, rfl, rfl, fun a => by cases a <;> rfl⟩

end Frame

variable {config : SimulationConfig} {c c' : Core} {inst : Instruction}

theorem fillDest_frame (h : c.fillDest inst = some c') : Frame c c' := by
  obtain ⟨s, hs, h⟩ := Option.bind_eq_some_iff.mp h
  obtain rfl := Option.some.inj h
  exact Frame.setBuffer (Sram.fill_eq_some hs).2.2

theorem noteLast_frame (h : c.noteLast inst = some c') : Frame c c' := by
  unfold noteLast at h
  split at h
  · obtain ⟨p, -, h⟩ := Option.bind_eq_some_iff.mp h
    split at h
    · obtain rfl := Option.some.inj h
      exact ⟨rfl, rfl, by simp [Function.comp_def], by simp [Function.comp_def], rfl, rfl, rfl, rfl,
        rfl, fun a => by cases a <;> rfl⟩
    · cases h
  · obtain rfl := Option.some.inj h
    exact Frame.refl c

theorem allocDest_frame (h : c.allocDest inst = some c') : Frame c c' := by
  obtain ⟨s, hs, h⟩ := Option.bind_eq_some_iff.mp h
  obtain rfl := Option.some.inj h
  apply Frame.setBuffer
  unfold allocIn at hs
  split at hs
  · exact (Sram.countUp_eq_some hs).2.2
  · exact (Sram.prefetch_eq_some hs).2.2.2

/-- The instruction at the head of a pipeline has finished, or nothing happens. -/
theorem finishComputePipeline_cases (h : c.finishComputePipeline = some c') :
    c' = c ∨ ∃ inst rest d e, c.computePipeline = inst :: rest ∧ inst.finishCycle ≤ c.coreCycle ∧
      c.fillDest inst = some d ∧ d.noteLast inst = some e ∧ c' = { e with computePipeline := rest } := by
  unfold finishComputePipeline at h
  split at h
  · exact .inl (Option.some.inj h).symm
  · rename_i inst rest hpipe
    split at h
    · rename_i hcycle
      obtain ⟨d, hd, h⟩ := Option.bind_eq_some_iff.mp h
      obtain ⟨e, he, h⟩ := Option.bind_eq_some_iff.mp h
      exact .inr ⟨inst, rest, d, e, hpipe, hcycle, hd, he, (Option.some.inj h).symm⟩
    · exact .inl (Option.some.inj h).symm

theorem finishVectorPipeline_cases (h : c.finishVectorPipeline = some c') :
    c' = c ∨ ∃ inst rest d e, c.vectorPipeline = inst :: rest ∧ inst.finishCycle ≤ c.coreCycle ∧
      c.fillDest inst = some d ∧ d.noteLast inst = some e ∧ c' = { e with vectorPipeline := rest } := by
  unfold finishVectorPipeline at h
  split at h
  · exact .inl (Option.some.inj h).symm
  · rename_i inst rest hpipe
    split at h
    · rename_i hcycle
      obtain ⟨d, hd, h⟩ := Option.bind_eq_some_iff.mp h
      obtain ⟨e, he, h⟩ := Option.bind_eq_some_iff.mp h
      exact .inr ⟨inst, rest, d, e, hpipe, hcycle, hd, he, (Option.some.inj h).symm⟩
    · exact .inl (Option.some.inj h).symm

theorem finishComputePipeline_frame (h : c.finishComputePipeline = some c') : Frame c c' := by
  rcases finishComputePipeline_cases h with rfl | ⟨inst, rest, d, e, -, -, hd, he, rfl⟩
  · exact Frame.refl _
  · exact (fillDest_frame hd).trans ((noteLast_frame he).trans (Frame.pipelines _ _ _))

theorem finishVectorPipeline_frame (h : c.finishVectorPipeline = some c') : Frame c c' := by
  rcases finishVectorPipeline_cases h with rfl | ⟨inst, rest, d, e, -, -, hd, he, rfl⟩
  · exact Frame.refl _
  · exact (fillDest_frame hd).trans ((noteLast_frame he).trans (Frame.pipelines _ _ _))

theorem handleExInstQueue_frame (h : handleExInstQueue config c = some c') : Frame c c' := by
  unfold handleExInstQueue at h
  split at h
  · obtain rfl := Option.some.inj h
    exact Frame.refl c
  · split at h
    · obtain ⟨d, hd, h⟩ := Option.bind_eq_some_iff.mp h
      have hframe := allocDest_frame hd
      split at h
      · obtain rfl := Option.some.inj h
        exact hframe.trans (Frame.pipelines _ _ _)
      · obtain ⟨cycles, -, h⟩ := Option.bind_eq_some_iff.mp h
        obtain rfl := Option.some.inj h
        exact hframe.trans (Frame.pipelines _ _ _)
    · obtain rfl := Option.some.inj h
      exact Frame.refl c

/-! ## Loads and stores -/

/-- A memory instruction has been executed: it put one access for each of its source addresses into
the request queue. -/
structure Executed (config : SimulationConfig) (inst : Instruction) (write : Bool) (c c' : Core) :
    Prop where
  id : c'.id = c.id
  coreCycle : c'.coreCycle = c.coreCycle
  tiles : c'.tiles.map Tile.unmarked = c.tiles.map Tile.unmarked
  finishedTiles : c'.finishedTiles.map Tile.unmarked = c.finishedTiles.map Tile.unmarked
  requestQueue : c'.requestQueue = c.requestQueue ++ accessesOf config c inst write
  transfers : c'.transfers = c.transfers ++ [(inst, accessesOf config c inst write)]
  dataWidth : ∀ a, (c'.buffer a).dataWidth = (c.buffer a).dataWidth
  baseAddr : inst.srcAddrs ≠ [] → inst.baseAddr ≠ GARBEGE_ADDR

theorem Frame.accessesOf_eq (h : Frame c c') (inst : Instruction) (write : Bool) :
    accessesOf config c' inst write = accessesOf config c inst write := by
  unfold accessesOf accessFor
  rw [h.id, h.coreCycle, h.nextAccessId]

theorem Frame.request {d e f : Core} {write : Bool} (hd : Frame c d)
    (h : d.request config inst write = some e) (hf : Frame e f) :
    Executed config inst write c f ∧ f.ldInstQueue = c.ldInstQueue ∧
      f.stInstQueue = c.stInstQueue := by
  unfold Core.request at h
  split at h
  · cases h
  · rename_i hbase
    obtain rfl := Option.some.inj h
    have haccesses : accessesOf config d inst write = accessesOf config c inst write :=
      hd.accessesOf_eq inst write
    refine ⟨⟨hf.id.trans hd.id, hf.coreCycle.trans hd.coreCycle, hf.tiles.trans hd.tiles,
      hf.finishedTiles.trans hd.finishedTiles, ?_, ?_, ?_, fun hne heq => hbase ⟨hne, heq⟩⟩,
      hf.ldInstQueue.trans hd.ldInstQueue, hf.stInstQueue.trans hd.stInstQueue⟩
    · rw [hf.requestQueue, ← haccesses, ← hd.requestQueue]
    · rw [hf.transfers, ← haccesses, ← hd.transfers]
    · intro a
      rw [hf.dataWidth, ← hd.dataWidth]
      cases a <;> rfl

/-- The load queue is empty, or its front is executed. -/
theorem handleLdInstQueue_cases (h : handleLdInstQueue config c = some c') :
    c' = c ∨ ∃ inst, inst.opcode = .MOVIN ∧ c.ldInstQueue = inst :: c'.ldInstQueue ∧
      c'.stInstQueue = c.stInstQueue ∧ Executed config inst false c c' := by
  unfold handleLdInstQueue at h
  split at h
  · exact .inl (Option.some.inj h).symm
  · rename_i front rest hq
    split at h
    · rename_i hop
      obtain ⟨s, hs, h⟩ := Option.bind_eq_some_iff.mp h
      obtain ⟨d, hd, h⟩ := Option.bind_eq_some_iff.mp h
      obtain rfl := Option.some.inj h
      have hframe : Frame c (c.setBuffer front.toAccum s) :=
        Frame.setBuffer (Sram.prefetch_eq_some hs).2.2.2
      obtain ⟨hex, -, hst⟩ := hframe.request hd (Frame.refl d)
      exact .inr ⟨front, hop, hq, hst, ⟨hex.id, hex.coreCycle, hex.tiles, hex.finishedTiles,
        hex.requestQueue, hex.transfers, hex.dataWidth, hex.baseAddr⟩⟩
    · cases h

/-- The store queue is empty, or its front misses and is lost, or its front is executed. -/
theorem handleStInstQueue_cases (h : handleStInstQueue config c = some c') :
    c' = c ∨ (∃ rest, c' = { c with stInstQueue := none :: rest } ∧
      ∃ inst, c.stInstQueue = some inst :: rest) ∨
    ∃ inst, isStore inst.opcode ∧ c.stInstQueue = some inst :: c'.stInstQueue ∧
      c'.ldInstQueue = c.ldInstQueue ∧ Executed config inst true c c' := by
  unfold handleStInstQueue at h
  split at h
  · exact .inl (Option.some.inj h).symm
  · cases h
  · rename_i front rest hq
    split at h
    · rename_i hop
      split at h
      · obtain ⟨d, hd, h⟩ := Option.bind_eq_some_iff.mp h
        obtain ⟨e, he, h⟩ := Option.bind_eq_some_iff.mp h
        obtain rfl := Option.some.inj h
        obtain ⟨hex, hld, -⟩ :=
          (Frame.refl c).request hd ((Frame.waiting _).trans (noteLast_frame he))
        exact .inr (.inr ⟨front, hop, hq, hld, ⟨hex.id, hex.coreCycle, hex.tiles,
          hex.finishedTiles, hex.requestQueue, hex.transfers, hex.dataWidth, hex.baseAddr⟩⟩)
      · obtain rfl := Option.some.inj h
        exact .inr (.inl ⟨rest, rfl, front, hq⟩)
    · cases h

/-- What frames, executed loads and stores and lost stores keep, the stages before `Core::cycle`
keep. -/
theorem handlePipelines_induction {P : Core → Prop} (hframe : ∀ c c', P c → Frame c c' → P c')
    (hload : ∀ c c' inst, P c → inst.opcode = .MOVIN → c.ldInstQueue = inst :: c'.ldInstQueue →
      c'.stInstQueue = c.stInstQueue → Executed config inst false c c' → P c')
    (hlost : ∀ c inst rest, P c → c.stInstQueue = some inst :: rest →
      P { c with stInstQueue := none :: rest })
    (hstore : ∀ c c' inst, P c → isStore inst.opcode → c.stInstQueue = some inst :: c'.stInstQueue →
      c'.ldInstQueue = c.ldInstQueue → Executed config inst true c c' → P c')
    (hP : P c) (h : handlePipelines config c = some c') : P c' := by
  obtain ⟨d₁, h₁, h⟩ := Option.bind_eq_some_iff.mp h
  obtain ⟨d₂, h₂, h⟩ := Option.bind_eq_some_iff.mp h
  obtain ⟨d₃, h₃, h⟩ := Option.bind_eq_some_iff.mp h
  obtain ⟨d₄, h₄, h⟩ := Option.bind_eq_some_iff.mp h
  have hP₂ : P d₂ :=
    hframe _ _ hP ((finishComputePipeline_frame h₁).trans (finishVectorPipeline_frame h₂))
  have hP₃ : P d₃ := by
    rcases handleLdInstQueue_cases h₃ with rfl | ⟨inst, hop, hq, hst, hex⟩
    · exact hP₂
    · exact hload _ _ inst hP₂ hop hq hst hex
  have hP₄ : P d₄ := hframe _ _ hP₃ (handleExInstQueue_frame h₄)
  rcases handleStInstQueue_cases h with rfl | ⟨rest, rfl, inst, hq⟩ | ⟨inst, hop, hq, hld, hex⟩
  · exact hP₄
  · exact hlost _ inst rest hP₄ hq
  · exact hstore _ _ inst hP₄ hop hq hld hex

/-! ## The issue loop -/

/-- A prepared instruction has been moved into one of the three queues. -/
inductive Enqueued (c : Core) (inst : Instruction) : Core → Prop
  | ld (opcode : inst.opcode = .MOVIN)
      (remain : (c.buffer inst.toAccum).checkRemain inst.size inst.bufferId) :
      Enqueued c inst { c with ldInstQueue := c.ldInstQueue ++ [inst] }
  | st (opcode : isStore inst.opcode) :
      Enqueued c inst { c with stInstQueue := c.stInstQueue ++ [some inst] }
  | ex (load : inst.opcode ≠ .MOVIN) (store : ¬ isStore inst.opcode) :
      Enqueued c inst { c with exInstQueue := c.exInstQueue ++ [inst] }

theorem tryIssue_eq_some (h : tryIssue config c inst = some (some c')) : Enqueued c inst c' := by
  unfold tryIssue at h
  by_cases hld : inst.opcode = .MOVIN
  · simp only [hld, if_true] at h
    split at h
    · rename_i hfree
      obtain rfl := Option.some.inj (Option.some.inj h)
      exact .ld hld (Bool.and_eq_true_iff.mp hfree).2
    · cases h
  · simp only [hld, if_false] at h
    by_cases hst : isStore inst.opcode = true
    · simp only [hst, if_true] at h
      split at h
      · obtain rfl := Option.some.inj (Option.some.inj h)
        exact .st hst
      · cases Option.some.inj h
    · simp only [hst, Bool.false_eq_true, if_false] at h
      split at h
      · obtain rfl := Option.some.inj (Option.some.inj h)
        exact .ex hld hst
      · cases Option.some.inj h

/-- What holds before the issue loop, and is kept when a visited tile keeps its front instruction
and when it loses it to a queue, holds after the loop. -/
theorem issueFrom_induction {P : Core → Prop}
    (hwait : ∀ c i t inst insts, P c → c.tiles[i]? = some t → t.instructions = inst :: insts →
      P { c with tiles := c.tiles.set i { t with instructions := prepare t inst :: insts } })
    (hissue : ∀ c i t inst insts q, P c → c.tiles[i]? = some t → t.instructions = inst :: insts →
      Enqueued c (prepare t inst) q →
      P { q with tiles := c.tiles.set i { t with instructions := insts }, tileRr := i })
    {order : List Nat} (hP : P c) (h : issueFrom config c order = some c') : P c' := by
  induction order generalizing c with
  | nil =>
    obtain rfl := Option.some.inj h
    exact hP
  | cons i order ih =>
    unfold issueFrom at h
    split at h
    · cases h
    · rename_i t ht
      split at h
      · exact ih hP h
      · rename_i inst insts hinsts
        obtain ⟨q, hq, h⟩ := Option.bind_eq_some_iff.mp h
        split at h
        · rename_i q
          obtain rfl := Option.some.inj h
          have hkept := hissue c i t inst insts
          cases tryIssue_eq_some hq with
          | ld hop hremain => simpa using hkept _ hP ht hinsts (.ld hop hremain)
          | st hop => simpa using hkept _ hP ht hinsts (.st hop)
          | ex hld hst => simpa using hkept _ hP ht hinsts (.ex hld hst)
        · exact ih (hwait c i t inst insts hP ht hinsts) h

/-! ## The other steps -/

/-- A tile as `issue` leaves it: new buffers, a new status and the start cycle. -/
structure IssuedAs (c : Core) (op op' : Tile) : Prop where
  ptr : op'.ptr = op.ptr
  instructions : op'.instructions = op.instructions
  skip : op'.skip = op.skip
  stat : op'.stat = { startCycle := c.coreCycle }

/-- A tile is issued: a tile to be skipped is finished at once. -/
structure IssuedTile (op : Tile) (c c' : Core) : Prop where
  id : c'.id = c.id
  coreCycle : c'.coreCycle = c.coreCycle
  ldInstQueue : c'.ldInstQueue = c.ldInstQueue
  stInstQueue : c'.stInstQueue = c.stInstQueue
  requestQueue : c'.requestQueue = c.requestQueue
  transfers : c'.transfers = c.transfers
  dataWidth : ∀ a, (c'.buffer a).dataWidth = (c.buffer a).dataWidth
  tiles : ∃ op', IssuedAs c op op' ∧
    (op.skip ∧ c'.tiles = c.tiles ∧ c'.finishedTiles = c.finishedTiles ++ [op'] ∨
      ¬ op.skip ∧ c'.tiles = c.tiles ++ [op'] ∧ c'.finishedTiles = c.finishedTiles)

theorem issue_spec (c : Core) (op : Tile) : IssuedTile op c (c.issue op) := by
  have hwidth : ∀ b : Bool, (if b then c.accSpad else c.accSpad.flush
      (c.assignBuffers op).accumSpadId).dataWidth = c.accSpad.dataWidth := by
    intro b
    cases b <;> rfl
  unfold issue
  by_cases hskip : op.skip = true
  · simp only [hskip, if_true]
    refine ⟨rfl, rfl, rfl, rfl, rfl, rfl, ?_, { c.assignBuffers op with status := .FINISH },
      ⟨rfl, rfl, rfl, rfl⟩, .inl ⟨hskip, rfl, rfl⟩⟩
    intro a
    cases a with
    | false => rfl
    | true => exact hwidth _
  · simp only [hskip]
    refine ⟨rfl, rfl, rfl, rfl, rfl, rfl, ?_, c.assignBuffers op, ⟨rfl, rfl, rfl, rfl⟩,
      .inr ⟨hskip, rfl, rfl⟩⟩
    intro a
    cases a with
    | false => rfl
    | true => exact hwidth _

theorem pushMemoryResponse_frame {response : MemoryAccess}
    (h : c.pushMemoryResponse response = some c') : Frame c c' := by
  unfold pushMemoryResponse at h
  split at h
  · cases h
  · split at h
    · obtain rfl := Option.some.inj h
      exact Frame.waiting _
    · split at h
      · obtain ⟨s, hs, h⟩ := Option.bind_eq_some_iff.mp h
        obtain rfl := Option.some.inj h
        exact Frame.setBuffer (a := true) (Sram.fill_eq_some hs).2.2
      · obtain ⟨s, hs, h⟩ := Option.bind_eq_some_iff.mp h
        obtain rfl := Option.some.inj h
        exact Frame.setBuffer (a := false) (Sram.fill_eq_some hs).2.2

theorem popMemoryRequest_eq_some {m : MemoryAccess} (h : c.popMemoryRequest = some (m, c')) :
    c.requestQueue = m :: c'.requestQueue ∧
      c' = { c with requestQueue := c'.requestQueue } := by
  unfold popMemoryRequest at h
  split at h
  · cases h
  · rename_i hq
    obtain ⟨rfl, rfl⟩ := Prod.mk.inj (Option.some.inj h)
    exact ⟨hq, rfl⟩

/-- The retirement loop does nothing, or moves one ready tile. -/
theorem retire_cases (c : Core) :
    c.retire = c ∨ ∃ i t, c.coreCycle % 8000 = 0 ∧ c.tiles[i]? = some t ∧ t.ready ∧
      c.retire = { c with
        tiles := c.tiles.eraseIdx i, finishedTiles := c.finishedTiles ++ [finishTile c t] } := by
  unfold retire
  split
  · exact .inl rfl
  · rename_i i hfind
    obtain ⟨hlt, hfound, -⟩ := List.findIdx?_eq_some_iff_getElem.mp hfind
    have ht : c.tiles[i]? = some c.tiles[i] := List.getElem?_eq_getElem hlt
    obtain ⟨hcycle, hready⟩ := Bool.and_eq_true_iff.mp hfound
    refine .inr ⟨i, c.tiles[i], of_decide_eq_true hcycle, ht, hready, ?_⟩
    rw [ht]

end Core

end OnnxSim
