import OnnxSim.Cache.Slots

/-!
# Dirty blocks

A dirty line stays resident and dirty through every step of the bank, except that the fill of a
memory response may evict it; that fill then queues exactly one writeback, for the block of the
line. Nothing else is ever queued for writing back.
-/

namespace OnnxSim

namespace Cache

/-! ## Steps that fill nothing -/

/-- The sets stay well formed, no line is dropped or cleaned and no writeback is queued. -/
structure KeepsLines (c c' : Cache) : Prop where
  wf : c.SetsWF → c'.SetsWF
  resident : ∀ b, c.SetsWF → (c'.Resident b ↔ c.Resident b)
  dirty : ∀ b, c.SetsWF → c.Dirty b → c'.Dirty b
  wbQ : c'.wbQ = c.wbQ

theorem KeepsLines.of_sets {c c' : Cache} (hs : c'.sets = c.sets) (hq : c'.wbQ = c.wbQ) :
    KeepsLines c c' := by
  have hl : ∀ b, c'.line b = c.line b := fun b => by rw [line, line, hs]
  refine ⟨fun h => ?_, fun b _ => ?_, fun b _ hd => ?_, hq⟩
  · intro si
    rw [hs]
    exact h si
  · rw [Resident, Resident, hl]
  · rwa [Dirty, hl]

theorem KeepsLines.refl (c : Cache) : KeepsLines c c := .of_sets rfl rfl

theorem KeepsLines.trans {c d e : Cache} (h₁ : KeepsLines c d) (h₂ : KeepsLines d e) :
    KeepsLines c e :=
  ⟨fun h => h₂.wf (h₁.wf h), fun b h => (h₂.resident b (h₁.wf h)).trans (h₁.resident b h),
    fun b h hd => h₂.dirty b (h₁.wf h) (h₁.dirty b h hd), h₂.wbQ.trans h₁.wbQ⟩

/-- A hit only sets the dirty bit of its block, and only for a write. -/
theorem answerHit_line {c : Cache} (h : c.SetsWF) {req : MemoryAccess}
    (hit : c.checkHit req.dramAddress = true) (b : AddrType) :
    (c.answerHit req).line b =
      if SameBlock b req.dramAddress ∧ req.write = true then
        (c.line b).map fun e => { e with dirty := true }
      else c.line b := by
  have hs := h (setIndex req.dramAddress)
  have hlt : (c.sets (setIndex req.dramAddress)).findTag (tagBits req.dramAddress) < NUM_WAYS :=
    of_decide_eq_true hit
  have hframe : ∀ s, (c.answerHit req).sets = (c.setSet (setIndex req.dramAddress) s).sets →
      (c.answerHit req).line b = if setIndex b = setIndex req.dramAddress then s.line (tagBits b)
        else c.line b := by
    intro s hsets
    rw [← line_setSet, line, hsets, line]
  cases hw : req.write with
  | false =>
    rw [hframe ((c.sets (setIndex req.dramAddress)).touch (c.findWay req.dramAddress))
      (by simp [answerHit, hw]), CacheSet.line_touch]
    by_cases hsi : setIndex b = setIndex req.dramAddress
    · simp [hsi, line]
    · simp [hsi]
  | true =>
    rw [hframe (((c.sets (setIndex req.dramAddress)).setWay (c.findWay req.dramAddress)
      { (c.sets (setIndex req.dramAddress)).ways (c.findWay req.dramAddress) with
        dirty := true }).touch (c.findWay req.dramAddress)) (by simp [answerHit, hw]),
      CacheSet.line_touch, findWay, CacheSet.line_setWay_dirty hs hlt]
    by_cases hsi : setIndex b = setIndex req.dramAddress
    · by_cases ht : tagBits b = tagBits req.dramAddress
      · rw [if_pos hsi, if_pos ht, if_pos ⟨sameBlock_iff.mpr ⟨hsi, ht⟩, rfl⟩, line, hsi, ht,
          CacheSet.line, if_pos hlt]
        rfl
      · rw [if_pos hsi, if_neg ht, if_neg (fun hc => ht (sameBlock_iff.mp hc.1).2), line, hsi]
    · rw [if_neg hsi, if_neg (fun hc => hsi (sameBlock_iff.mp hc.1).1)]

theorem answerHit_keeps {c : Cache} {req : MemoryAccess}
    (hit : c.checkHit req.dramAddress = true) : KeepsLines c (c.answerHit req) := by
  refine ⟨fun h => ?_, fun b h => ?_, fun b h hd => ?_, rfl⟩
  · refine SetsWF.setSet (c := c) (i := setIndex req.dramAddress) h ?_
    have hs := h (setIndex req.dramAddress)
    split
    · exact hs.setWay_dirty.touch _
    · exact hs.touch _
  · rw [Resident, answerHit_line h hit b, Resident]
    split <;> simp
  · obtain ⟨e, he, hed⟩ := hd
    rw [Dirty, answerHit_line h hit b, he]
    split
    · exact ⟨_, rfl, rfl⟩
    · exact ⟨e, rfl, hed⟩

/-- A write hit makes its block dirty. -/
theorem answerHit_dirty {c : Cache} (h : c.SetsWF) {req : MemoryAccess}
    (hit : c.checkHit req.dramAddress = true) (hw : req.write = true) {b : AddrType}
    (hb : SameBlock b req.dramAddress) : (c.answerHit req).Dirty b := by
  have hres : (c.line b).isSome := by
    rw [line_congr c hb]
    exact (checkHit_iff c _).mp hit
  obtain ⟨e, he⟩ := Option.isSome_iff_exists.mp hres
  refine ⟨{ e with dirty := true }, ?_, rfl⟩
  rw [answerHit_line h hit b, if_pos ⟨hb, hw⟩, he]
  rfl

theorem processOneRequest_keeps {c : Cache} (hs : c.SlotsWF) :
    KeepsLines c c.processOneRequest.2 := by
  cases hq : c.inQ with
  | nil =>
    rw [processOneRequest_nil hq]
    exact .refl c
  | cons req rest =>
    have hpop : KeepsLines c { c with inQ := rest } := .of_sets rfl rfl
    cases processOneRequest_cases hs hq with
    | hit hit eq =>
      rw [eq]
      exact hpop.trans (answerHit_keeps hit)
    | coalesced _ slot _ _ eq =>
      rw [eq]
      exact .of_sets rfl rfl
    | full _ _ _ eq =>
      rw [eq]
      exact .refl c
    | burst _ _ slot slots _ _ eq =>
      rw [eq]
      obtain ⟨⟨hset, -, -, -, hwb, -⟩, -⟩ :=
        issueBurst_spec (c.openMiss slot slots req rest) slot req
      exact .of_sets hset hwb
    | blocks _ _ slot slots _ _ eq =>
      rw [eq]
      obtain ⟨⟨hset, -, -, -, hwb, -⟩, -⟩ := issueBlocks_spec
        ((c.openMiss slot slots req rest).setPending slot
          { (c.openMiss slot slots req rest).pending slot with isBurstMode := false }) slot
      exact .of_sets hset hwb

theorem issueBlocks_keeps (c : Cache) (slot : Nat) : KeepsLines c (c.issueBlocks slot) :=
  .of_sets (issueBlocks_spec c slot).frame.1 (issueBlocks_spec c slot).frame.2.2.2.2.1

theorem continueIssue_keeps (c : Cache) (slot : Nat) : KeepsLines c (c.continueIssue slot) := by
  unfold continueIssue
  split
  · exact .refl c
  · split
    · exact issueBlocks_keeps c slot
    · exact .refl c

theorem continueIssues_keeps (c : Cache) : KeepsLines c c.continueIssues :=
  continueIssues_induction (P := KeepsLines c) continueIssue_activeSlots
    (fun d s _ hd => hd.trans (continueIssue_keeps d s)) (.refl c)

theorem SlotsWF.continueIssues {c : Cache} (h : c.SlotsWF) : c.continueIssues.SlotsWF :=
  continueIssues_induction continueIssue_activeSlots (fun _ _ hs hd => hd.continueIssue hs) h

theorem cycle_keeps {c : Cache} (h : c.SlotsWF) : KeepsLines c c.cycle := by
  have key : c.continueIssues.processRequests.SlotsWF ∧
      KeepsLines c c.continueIssues.processRequests :=
    processRequests_induction (P := fun d => d.SlotsWF ∧ KeepsLines c d)
      (fun _ _ hd => ⟨hd.1.processOneRequest, hd.2.trans (processOneRequest_keeps hd.1)⟩)
      ⟨h.continueIssues, continueIssues_keeps c⟩
  exact key.2

/-! ## The fill of a response -/

/-- What one step may do to the lines: keep every dirty one and queue nothing, or evict the line
of one dirty block, queueing its writeback. -/
inductive KeepsDirty (c c' : Cache) : Prop
  | kept (dirty : ∀ b, c.Dirty b → c'.Dirty b) (wbQ : c'.wbQ = c.wbQ)
  | evicted (v : AddrType) (wasDirty : c.Dirty v) (gone : ¬ c'.Resident v)
      (dirty : ∀ b, ¬ SameBlock b v → c.Dirty b → c'.Dirty b) (m : MemoryAccess)
      (wbQ : c'.wbQ = c.wbQ ++ [m]) (writeback : IsWriteback m v)

theorem FillSpec.keepsDirty {c c' : Cache} {a : AddrType} {wr : Bool} (h : FillSpec c c' a wr) :
    KeepsDirty c c' := by
  obtain ⟨e, he, hed⟩ := h.filled
  have hown : ∀ b, SameBlock b a → c.Dirty b → c'.Dirty b := by
    intro b hb hd
    exact ⟨e, (line_congr c' hb).trans he, hed.mpr (.inr (hd.congr hb))⟩
  obtain ⟨hlines, hq⟩ | ⟨v, ev, hva, hv, hlines, hq⟩ := h.rest
  · refine .kept (fun b hd => ?_) hq
    by_cases hb : SameBlock b a
    · exact hown b hb hd
    · rwa [Dirty, hlines b hb]
  · have hrest : ∀ b, ¬ SameBlock b v → c.Dirty b → c'.Dirty b := by
      intro b hbv hd
      by_cases hb : SameBlock b a
      · exact hown b hb hd
      · rwa [Dirty, hlines b hb, if_neg hbv]
    obtain ⟨hclean, hq⟩ | ⟨hdirty, m, hq, hm⟩ := hq
    · refine .kept (fun b hd => hrest b (fun hbv => ?_) hd) hq
      obtain ⟨e', he', hd'⟩ := hd
      rw [line_congr c hbv, hv] at he'
      rw [Option.some.inj he', hd'] at hclean
      cases hclean
    · refine .evicted v ⟨ev, hv, hdirty⟩ ?_ hrest m hq hm
      have hvv : SameBlock v v := rfl
      rw [Resident, hlines v hva, if_pos hvv]
      simp

theorem KeepsDirty.of_sets {c d d' : Cache} (h : KeepsDirty c d) (hs : d'.sets = d.sets)
    (hq : d'.wbQ = d.wbQ) : KeepsDirty c d' := by
  have hl : ∀ b, d'.line b = d.line b := fun b => by rw [line, line, hs]
  have hd : ∀ b, d'.Dirty b ↔ d.Dirty b := fun b => by rw [Dirty, Dirty, hl]
  cases h with
  | kept dirty wbQ => exact .kept (fun b hb => (hd b).mpr (dirty b hb)) (hq.trans wbQ)
  | evicted v wasDirty gone dirty m wbQ writeback =>
    refine .evicted v wasDirty ?_ (fun b hb hdb => (hd b).mpr (dirty b hb hdb)) m (hq.trans wbQ)
      writeback
    rwa [Resident, hl]

theorem reissue_frame (c : Cache) (slot : Nat) :
    (c.reissue slot).sets = c.sets ∧ (c.reissue slot).wbQ = c.wbQ ∧
      (c.reissue slot).inQ = c.inQ ∧ (c.reissue slot).outQ = c.outQ := by
  unfold reissue
  split
  · obtain ⟨hs, -, -, hi, hw, ho, -⟩ := (issueBlocks_spec c slot).frame
    exact ⟨hs, hw, hi, ho⟩
  · exact ⟨rfl, rfl, rfl, rfl⟩

theorem complete_frame (c : Cache) (slot : Nat) :
    (c.complete slot).sets = c.sets ∧ (c.complete slot).wbQ = c.wbQ ∧
      (c.complete slot).inQ = c.inQ ∧ (c.complete slot).missQ = c.missQ := by
  unfold complete
  split <;> simp

/-- A response that is counted fills its block; whatever follows leaves the lines alone. -/
theorem pushMemoryResponse_sets {c : Cache} {resp : MemoryAccess}
    (h : (c.pending resp.id).active = true) (hlt : resp.id < MAX_PENDING_OBJS) :
    let d := c.fill (blockBase resp.dramAddress) (c.pending resp.id).isWrite
      (c.pending resp.id).coreId
    (c.pushMemoryResponse resp).sets = d.sets ∧ (c.pushMemoryResponse resp).wbQ = d.wbQ := by
  intro d
  rw [pushMemoryResponse_counted h hlt]
  obtain ⟨hcs, hcw, -⟩ := complete_frame ((d.countReturn resp.id).reissue resp.id) resp.id
  obtain ⟨hrs, hrw, -⟩ := reissue_frame (d.countReturn resp.id) resp.id
  simp only [poolRelease_frame]
  exact ⟨hcs.trans hrs, hcw.trans hrw⟩

theorem pushMemoryResponse_fills {c : Cache} (hl : c.SetsWF) (hs : c.SlotsWF) {resp : MemoryAccess}
    (h : (c.pending resp.id).active = true) : (c.pushMemoryResponse resp).Resident resp.dramAddress := by
  obtain ⟨hsets, -⟩ := pushMemoryResponse_sets h (hs.lt ((hs.active _).mp h))
  obtain ⟨e, he, -⟩ := (fill_spec hl (blockBase resp.dramAddress) (c.pending resp.id).isWrite
    (c.pending resp.id).coreId).filled
  rw [line_congr _ (sameBlock_blockBase _)] at he
  rw [Resident, line, hsets, ← line, he]
  rfl

theorem pushMemoryResponse_keepsDirty {c : Cache} (hl : c.SetsWF) (hs : c.SlotsWF)
    (resp : MemoryAccess) :
    (c.pushMemoryResponse resp).SetsWF ∧ KeepsDirty c (c.pushMemoryResponse resp) := by
  cases ha : (c.pending resp.id).active with
  | false =>
    rw [pushMemoryResponse_ignored (.inl ha)]
    have hk : KeepsLines c (c.poolRelease resp.ptr) := .of_sets (by simp) (by simp)
    exact ⟨hk.wf hl, .kept (fun b => hk.dirty b hl) hk.wbQ⟩
  | true =>
    have hlt := hs.lt ((hs.active resp.id).mp ha)
    obtain ⟨hsets, hq⟩ := pushMemoryResponse_sets ha hlt
    have hfill := fill_spec hl (blockBase resp.dramAddress) (c.pending resp.id).isWrite
      (c.pending resp.id).coreId
    refine ⟨fun si => ?_, hfill.keepsDirty.of_sets hsets hq⟩
    rw [hsets]
    exact hfill.wf si

/-! ## Every run -/

theorem step_setsWF {c : Cache} (hl : c.SetsWF) (hs : c.SlotsWF) (op : Op) :
    (c.step op).SetsWF := by
  cases op with
  | pushRequest req => exact hl
  | cycle => exact (cycle_keeps hs).wf hl
  | popMissRequest => exact hl
  | popWbRequest => exact hl
  | pushMemoryResponse resp => exact (pushMemoryResponse_keepsDirty hl hs resp).1
  | popResponse => exact hl

theorem Run.setsWF {t : List (Cache × Op)} {c : Cache} (run : Run t c) : c.SetsWF := by
  have key : c.SetsWF ∧ c.SlotsWF :=
    run.invariant (P := fun c => c.SetsWF ∧ c.SlotsWF) ⟨setsWF_init, slotsWF_init⟩
      fun _ op _ hd hs => hs ▸ ⟨step_setsWF hd.1 hd.2 op, hd.2.step op⟩
  exact key.1

/-- The effect of an entry point on dirty lines and on the writeback queue: only a memory response
can evict, and only `pop_wb_request` takes from the queue. -/
def StepKeepsDirty (c : Cache) (op : Op) : Prop :=
  match op with
  | .pushMemoryResponse resp => KeepsDirty c (c.pushMemoryResponse resp)
  | op => (∀ b, c.Dirty b → (c.step op).Dirty b) ∧
      (c.step op).wbQ = match op with
        | .popWbRequest => c.wbQ.tail
        | _ => c.wbQ

theorem step_keepsDirty {c : Cache} (hl : c.SetsWF) (hs : c.SlotsWF) (op : Op) :
    StepKeepsDirty c op := by
  cases op with
  | pushRequest req => exact ⟨fun _ hd => hd, rfl⟩
  | cycle => exact ⟨fun b => (cycle_keeps hs).dirty b hl, (cycle_keeps hs).wbQ⟩
  | popMissRequest => exact ⟨fun _ hd => hd, rfl⟩
  | popWbRequest => exact ⟨fun _ hd => hd, rfl⟩
  | pushMemoryResponse resp => exact (pushMemoryResponse_keepsDirty hl hs resp).2
  | popResponse => exact ⟨fun _ hd => hd, rfl⟩

/-- In every state a bank reaches: the mask of each set agrees with the valid bits and the valid
tags differ; `fill` makes its block a hit, dirty when it is a write fill; a fill evicts at most one
dirty block, queueing exactly its writeback; and no step but such an eviction drops or cleans a
dirty line or queues a writeback. -/
theorem dirty_blocks_kept {t : List (Cache × Op)} {c : Cache} (run : Run t c) :
    (∀ si, (c.sets si).WF) ∧
      (∀ a wr k, (c.fill a wr k).checkHit a = true ∧ (wr = true → (c.fill a wr k).Dirty a) ∧
        KeepsDirty c (c.fill a wr k)) ∧
      (∀ req, c.checkHit req.dramAddress = true → req.write = true →
        (c.answerHit req).Dirty req.dramAddress) ∧
      ∀ op, StepKeepsDirty c op := by
  have hl := run.setsWF
  refine ⟨hl, fun a wr k => ?_, fun req hit hw => ?_, fun op => step_keepsDirty hl run.slotsWF op⟩
  · have hfill := fill_spec hl a wr k
    obtain ⟨e, he, hed⟩ := hfill.filled
    refine ⟨?_, fun hw => ⟨e, he, hed.mpr (.inl hw)⟩, hfill.keepsDirty⟩
    rw [checkHit_iff, Resident, he]
    rfl
  · exact answerHit_dirty hl hit hw rfl

/-- A write that misses, and the answer to its block. -/
def writeFetch : List Op :=
  let w : MemoryAccess :=
    { ptr := .heap 0, id := 1, dramAddress := 0x1080#64, size := 32, objectSize := 32, write := true,
      request := true, coreId := 3, bufferId := 0 }
  [.pushRequest w, .cycle, .popMissRequest, .pushMemoryResponse { w.answered with id := 0 }]

/-- The bank after a write fetch. -/
theorem dirty_blocks_kept_writeFetch :
    (∀ si, ((writeFetch.foldl step init).sets si).WF) ∧
      ∀ op, StepKeepsDirty (writeFetch.foldl step init) op :=
  have hkept := dirty_blocks_kept (Machine.Run.of_foldl step init writeFetch)
  ⟨hkept.1, hkept.2.2.2⟩

end Cache

end OnnxSim
