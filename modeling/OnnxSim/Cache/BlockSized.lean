import OnnxSim.Cache.Depth

/-!
# The size of what a bank asks for

Every access that a bank queues for the memory is for one whole block, a fetch or a writeback, but for the
access that stands for a large object. So the queues hold whole blocks only, exactly as long as no large
object is opened (`Cache.Run.queuesBlocks_iff`).
-/

namespace OnnxSim

/-- The access is for one block. -/
def MemoryAccess.BlockSized (m : MemoryAccess) : Prop :=
  BLOCK_SIZE ∣ m.dramAddress.toNat ∧ m.size = BLOCK_SIZE

namespace Cache

theorem dvd_blockBase (a : AddrType) : BLOCK_SIZE ∣ (blockBase a).toNat := by
  rw [blockBase_toNat]
  exact Nat.dvd_mul_left _ _

theorem dvd_block {base : AddrType} (h : BLOCK_SIZE ∣ base.toNat) (k : Nat) :
    BLOCK_SIZE ∣ (base + BitVec.ofNat 64 (k * BLOCK_SIZE)).toNat := by
  rw [BitVec.toNat_add, BitVec.toNat_ofNat, Nat.add_mod_mod]
  unfold BLOCK_SIZE at h ⊢
  omega

theorem IsBlockOf.blockSized {slot k : Nat} {po : PendingObject} {m : MemoryAccess}
    (h : IsBlockOf slot po k m) (hbase : BLOCK_SIZE ∣ po.baseAddr.toNat) : m.BlockSized := by
  refine ⟨?_, h.size⟩
  rw [h.address]
  exact dvd_block hbase k

theorem IsWriteback.blockSized {m : MemoryAccess} {v : AddrType} (h : IsWriteback m v) :
    m.BlockSized := by
  refine ⟨?_, h.size⟩
  rw [h.address]
  exact dvd_blockBase v

/-- The objects that are pending begin at a block. -/
def BasesAligned (c : Cache) : Prop :=
  ∀ s ∈ c.activeSlots, BLOCK_SIZE ∣ (c.pending s).baseAddr.toNat

/-- Every access queued for the memory is for one block. -/
def QueuesBlocks (c : Cache) : Prop := ∀ m ∈ c.missQ ++ c.wbQ, m.BlockSized

/-- No call of `process_one_request` in the step opens a large object. -/
def OpensNoLarge (c : Cache) : Op → Prop
  | .cycle => ∀ d ∈ c.processPoints, ¬ d.TakesBurst
  | _ => True

variable {c d : Cache}

theorem BasesAligned.congr (h : c.BasesAligned) (ha : d.activeSlots = c.activeSlots)
    (hbase : ∀ s ∈ c.activeSlots, (d.pending s).baseAddr = (c.pending s).baseAddr) :
    d.BasesAligned := by
  intro s hs
  rw [ha] at hs
  rw [hbase s hs]
  exact h s hs

/-- What a step queues besides. -/
theorem QueuesBlocks.append {subs wbs : List MemoryAccess} (h : c.QueuesBlocks)
    (hmiss : d.missQ = c.missQ ++ subs) (hwb : d.wbQ = c.wbQ ++ wbs)
    (hsubs : ∀ m ∈ subs, m.BlockSized) (hwbs : ∀ m ∈ wbs, m.BlockSized) : d.QueuesBlocks := by
  intro m hm
  rw [hmiss, hwb, List.append_assoc, List.mem_append, List.mem_append, List.mem_append] at hm
  rcases hm with hm | hm | hm | hm
  · exact h m (List.mem_append_left _ hm)
  · exact hsubs m hm
  · exact h m (List.mem_append_right _ hm)
  · exact hwbs m hm

theorem QueuesBlocks.append_missQ {subs : List MemoryAccess} (h : c.QueuesBlocks)
    (hmiss : d.missQ = c.missQ ++ subs) (hwb : d.wbQ = c.wbQ) (hsubs : ∀ m ∈ subs, m.BlockSized) :
    d.QueuesBlocks := by
  have hwbs : d.wbQ = c.wbQ ++ [] := by rw [hwb, List.append_nil]
  exact h.append hmiss hwbs hsubs fun m hm => absurd hm List.not_mem_nil

/-! ## Issuing -/

theorem BasesAligned.issueBlocks (h : c.BasesAligned) (slot : Nat) :
    (c.issueBlocks slot).BasesAligned := by
  have hi := issueBlocks_spec c slot
  refine h.congr hi.frame.2.1 fun s _ => ?_
  rw [hi.pending]
  by_cases hss : s = slot
  · subst hss
    rw [Function.update_self]
  · rw [Function.update_of_ne hss]

theorem QueuesBlocks.issueBlocks {slot : Nat} (h : c.QueuesBlocks) (hbases : c.BasesAligned)
    (hs : slot ∈ c.activeSlots) : (c.issueBlocks slot).QueuesBlocks := by
  have hi := issueBlocks_spec c slot
  obtain ⟨subs, hq, -, hsubs⟩ := hi.subs
  obtain ⟨-, -, -, -, hwb, -⟩ := hi.frame
  apply h.append_missQ hq hwb
  intro m hm
  obtain ⟨k, -, hblock⟩ := hsubs m hm
  exact hblock.blockSized (hbases slot hs)

theorem BasesAligned.continueIssues (h : c.BasesAligned) : c.continueIssues.BasesAligned := by
  refine continueIssues_induction (P := BasesAligned) continueIssue_activeSlots
    (fun d s _ hd => ?_) h
  unfold continueIssue
  split
  · exact hd
  · split
    · exact hd.issueBlocks s
    · exact hd

theorem QueuesBlocks.continueIssues (h : c.QueuesBlocks) (hbases : c.BasesAligned) :
    c.continueIssues.QueuesBlocks := by
  have key : c.continueIssues.BasesAligned ∧ c.continueIssues.QueuesBlocks := by
    refine continueIssues_induction (P := fun d => d.BasesAligned ∧ d.QueuesBlocks)
      continueIssue_activeSlots (fun d s hs hd => ?_) ⟨hbases, h⟩
    unfold continueIssue
    split
    · exact hd
    · split
      · exact ⟨hd.1.issueBlocks s, hd.2.issueBlocks hd.1 hs⟩
      · exact hd
  exact key.2

/-! ## Requests -/

theorem BasesAligned.processOneRequest (hw : c.SlotsWF) (h : c.BasesAligned) :
    c.processOneRequest.2.BasesAligned := by
  cases hq : c.inQ with
  | nil =>
    rw [processOneRequest_nil hq]
    exact h
  | cons req rest =>
    have hdisj : ∀ {slot slots}, c.freeSlots = slot :: slots → ∀ s ∈ c.activeSlots, s ≠ slot :=
      fun free s hs heq => hw.disjoint s hs (by simp [free, heq])
    cases processOneRequest_cases hw hq with
    | hit _ eq =>
      rw [eq]
      exact h.congr (by simp) (by simp)
    | coalesced _ slot _ _ eq =>
      rw [eq]
      refine h.congr (by simp) fun s _ => ?_
      by_cases hss : s = slot
      · subst hss
        simp
      · simp [hss]
    | full _ _ _ eq =>
      rw [eq]
      exact h
    | burst _ _ slot slots free _ eq =>
      rw [eq]
      obtain ⟨⟨-, ha, -⟩, hpend, -⟩ := issueBurst_spec (c.openMiss slot slots req rest) slot req
      intro s hs
      rw [ha] at hs
      rcases List.mem_append.mp hs with hs | hs
      · simpa [hpend, openMiss_pending, hdisj free s hs] using h s hs
      · obtain rfl := List.mem_singleton.mp hs
        simpa [hpend, openMiss_pending, burstObject] using dvd_blockBase req.dramAddress
    | blocks _ _ slot slots free _ eq =>
      rw [eq]
      obtain ⟨⟨-, ha, -⟩, hpend, -⟩ := issueFirst_spec (c.openMiss slot slots req rest) slot
      intro s hs
      rw [ha] at hs
      rcases List.mem_append.mp hs with hs | hs
      · simpa [hpend, openMiss_pending, hdisj free s hs] using h s hs
      · obtain rfl := List.mem_singleton.mp hs
        simpa [hpend, openMiss_pending] using dvd_blockBase req.dramAddress

/-- What a call of `process_one_request` queues: for a large object an access larger than a block, and
otherwise blocks. -/
theorem processOneRequest_queued (hw : c.SlotsWF) :
    ∃ subs, c.processOneRequest.2.missQ = c.missQ ++ subs ∧
      (c.TakesBurst → ∃ m ∈ subs, m.size ≠ BLOCK_SIZE) ∧
      (¬ c.TakesBurst → ∀ m ∈ subs, m.BlockSized) := by
  cases hq : c.inQ with
  | nil =>
    rw [processOneRequest_nil hq]
    exact ⟨[], by simp, by simp [TakesBurst, hq], by simp⟩
  | cons req rest =>
    have hburst := takesBurst_iff hq
    cases processOneRequest_cases hw hq with
    | hit hit eq =>
      rw [eq]
      exact ⟨[], by simp, by simp [hburst, hit], by simp⟩
    | coalesced _ slot find lt eq =>
      rw [eq]
      refine ⟨[], by simp, ?_, by simp⟩
      rw [hburst, find]
      exact fun hb => absurd lt hb.2.1
    | full _ _ free eq =>
      rw [eq]
      exact ⟨[], by simp, by simp [hburst, free], by simp⟩
    | burst miss find slot slots free large eq =>
      rw [eq]
      obtain ⟨-, -, m, hm, -, -, hsize⟩ :=
        issueBurst_spec (c.openMiss slot slots req rest) slot req
      refine ⟨[m], hm, fun _ => ⟨m, List.mem_singleton_self m, ?_⟩, fun hnot => absurd ?_ hnot⟩
      · rw [hsize]
        unfold LARGE_OBJ_THRESHOLD at large
        unfold BLOCK_SIZE
        omega
      · rw [hburst, free]
        exact ⟨miss, find, by simp, large⟩
    | blocks _ _ slot slots _ small eq =>
      rw [eq]
      obtain ⟨-, -, subs, hsq, -, hsub⟩ := issueFirst_spec (c.openMiss slot slots req rest) slot
      refine ⟨subs, hsq, fun hb => absurd (hburst.mp hb).2.2.2 small, fun _ m hm => ?_⟩
      obtain ⟨i, hi⟩ := List.mem_iff_getElem?.mp hm
      refine (hsub i m hi).blockSized ?_
      rw [openMiss_pending, Function.update_self]
      exact dvd_blockBase req.dramAddress

theorem QueuesBlocks.processOneRequest (hw : c.SlotsWF) (h : c.QueuesBlocks)
    (hburst : ¬ c.TakesBurst) : c.processOneRequest.2.QueuesBlocks := by
  obtain ⟨subs, hq, -, hblocks⟩ := processOneRequest_queued hw
  exact h.append_missQ hq (processOneRequest_keeps hw).wbQ (hblocks hburst)

theorem BasesAligned.cycle (hw : c.SlotsWF) (h : c.BasesAligned) : c.cycle.BasesAligned := by
  have key : c.continueIssues.processRequests.SlotsWF ∧
      c.continueIssues.processRequests.BasesAligned :=
    processRequests_induction (P := fun d => d.SlotsWF ∧ d.BasesAligned)
      (fun d _ hd => ⟨hd.1.processOneRequest, hd.2.processOneRequest hd.1⟩)
      ⟨hw.continueIssues, h.continueIssues⟩
  exact key.2

/-- A queue with a larger access keeps it through the calls that follow in the cycle. -/
theorem cycle_queuesBlocks_iff (hw : c.SlotsWF) (hbases : c.BasesAligned) (h : c.QueuesBlocks) :
    c.cycle.QueuesBlocks ↔ c.OpensNoLarge .cycle := by
  have key := processRequests_iff (P := fun d => d.SlotsWF ∧ d.QueuesBlocks)
    (M := fun d => d.SlotsWF ∧ ∃ m ∈ d.missQ, m.size ≠ BLOCK_SIZE) (B := TakesBurst)
    (c := c.continueIssues) ?_ ?_ ?_ ?_ ⟨hw.continueIssues, h.continueIssues hbases⟩
  · exact ⟨fun hend => key.mp ⟨hw.cycle, hend⟩, fun hnone => (key.mpr hnone).2⟩
  · exact fun d hd hB => ⟨hd.1.processOneRequest, hd.2.processOneRequest hd.1 hB⟩
  · intro d hd hB
    obtain ⟨subs, hq, hlarge, -⟩ := processOneRequest_queued hd.1
    obtain ⟨m, hm, hsize⟩ := hlarge hB
    exact ⟨hd.1.processOneRequest, m, hq ▸ List.mem_append_right _ hm, hsize⟩
  · rintro d ⟨hdw, m, hm, hsize⟩
    obtain ⟨subs, hq, -⟩ := processOneRequest_queued hdw
    exact ⟨hdw.processOneRequest, m, hq ▸ List.mem_append_left _ hm, hsize⟩
  · rintro d ⟨-, m, hm, hsize⟩ ⟨-, hblocks⟩
    exact hsize (hblocks m (List.mem_append_left _ hm)).2

/-! ## Small objects -/

theorem continueIssues_inQ (c : Cache) : c.continueIssues.inQ = c.inQ := by
  refine continueIssues_induction (P := fun d => d.inQ = c.inQ) continueIssue_activeSlots
    (fun d s _ hd => ?_) rfl
  unfold continueIssue
  split
  · exact hd
  · split
    · obtain ⟨-, -, -, hin, -⟩ := (issueBlocks_spec d s).frame
      exact hin.trans hd
    · exact hd

/-- A call of `process_one_request` takes the head of the input queue or leaves it. -/
theorem processOneRequest_inQ (hw : c.SlotsWF) : c.processOneRequest.2.inQ <:+ c.inQ := by
  cases hq : c.inQ with
  | nil =>
    rw [processOneRequest_nil hq, hq]
  | cons req rest =>
    have hrest : rest <:+ req :: rest := List.suffix_cons req rest
    cases processOneRequest_cases hw hq with
    | hit _ eq => simp [eq]
    | coalesced _ slot _ _ eq => simp [eq]
    | full _ _ _ eq => rw [eq, hq]
    | burst _ _ slot slots _ _ eq =>
      obtain ⟨⟨-, -, -, hin, -⟩, -⟩ := issueBurst_spec (c.openMiss slot slots req rest) slot req
      rw [eq, hin]
      exact hrest
    | blocks _ _ slot slots _ _ eq =>
      obtain ⟨⟨-, -, -, hin, -⟩, -⟩ := issueFirst_spec (c.openMiss slot slots req rest) slot
      rw [eq, hin]
      exact hrest

/-- A cycle that finds no large object in the input queue opens none. -/
theorem opensNoLarge_of_small (hw : c.SlotsWF)
    (hsmall : ∀ r ∈ c.inQ, r.objectSize < LARGE_OBJ_THRESHOLD) : c.OpensNoLarge .cycle := by
  have hpoints := processPoints_forall (P := fun d => d.SlotsWF ∧ d.inQ <:+ c.inQ)
    (fun hc => ⟨hc.1.continueIssues, (continueIssues_inQ c).symm ▸ hc.2⟩)
    (fun d hd => ⟨hd.1.processOneRequest, (processOneRequest_inQ hd.1).trans hd.2⟩)
    ⟨hw, List.suffix_refl _⟩
  rintro d hd ⟨req, hreq, -, -, -, hlarge⟩
  have hmem : req ∈ c.inQ := (hpoints d hd).2.subset (List.mem_of_mem_head? hreq)
  exact absurd hlarge (Nat.not_le_of_lt (hsmall req hmem))

/-! ## Responses -/

theorem BasesAligned.pushMemoryResponse (hw : c.SlotsWF) (h : c.BasesAligned)
    (resp : MemoryAccess) : (c.pushMemoryResponse resp).BasesAligned := by
  cases ha : (c.pending resp.id).active with
  | false =>
    rw [pushMemoryResponse_ignored (.inl ha)]
    exact h.congr (by simp) (by simp)
  | true =>
    have hs := (hw.active resp.id).mp ha
    obtain ⟨_, -, -, -, -, hother, hcase⟩ := pushMemoryResponse_cases hw hs
    have hrest : ∀ s ∈ c.activeSlots, s ≠ resp.id →
        BLOCK_SIZE ∣ ((c.pushMemoryResponse resp).pending s).baseAddr.toNat := by
      intro s hsc hss
      obtain ⟨i, hi⟩ := hother s hss
      rw [hi]
      exact h s hsc
    intro s hsd
    cases hcase with
    | kept active object _ _ =>
      rw [active] at hsd
      by_cases hss : s = resp.id
      · subst hss
        rw [object]
        exact h resp.id hsd
      · exact hrest s hsd hss
    | released active _ _ =>
      obtain ⟨hsc, hss⟩ := (active s).mp hsd
      exact hrest s hsc hss

theorem QueuesBlocks.pushMemoryResponse (hl : c.SetsWF) (hw : c.SlotsWF) (hbases : c.BasesAligned)
    (h : c.QueuesBlocks) (resp : MemoryAccess) : (c.pushMemoryResponse resp).QueuesBlocks := by
  have hmiss : ∃ subs, (c.pushMemoryResponse resp).missQ = c.missQ ++ subs ∧
      ∀ m ∈ subs, m.BlockSized := by
    cases ha : (c.pending resp.id).active with
    | false =>
      rw [pushMemoryResponse_ignored (.inl ha)]
      exact ⟨[], by simp, by simp⟩
    | true =>
      have hs := (hw.active resp.id).mp ha
      obtain ⟨subs, hq, hsubs⟩ := pushMemoryResponse_subs hw hs
      refine ⟨subs, hq, fun m hm => ?_⟩
      obtain ⟨k, -, hblock⟩ := hsubs m hm
      exact hblock.blockSized (hbases resp.id hs)
  obtain ⟨subs, hq, hsubs⟩ := hmiss
  cases (pushMemoryResponse_keepsDirty hl hw resp).2 with
  | kept _ wbQ => exact h.append_missQ hq wbQ hsubs
  | evicted v _ _ _ m wbQ writeback =>
    refine h.append hq wbQ hsubs fun x hx => ?_
    obtain rfl := List.mem_singleton.mp hx
    exact writeback.blockSized

/-! ## Runs -/

theorem BasesAligned.step (hw : c.SlotsWF) (h : c.BasesAligned) (op : Op) :
    (c.step op).BasesAligned := by
  cases op with
  | pushRequest req => exact h
  | cycle => exact h.cycle hw
  | popMissRequest => exact h
  | popWbRequest => exact h
  | pushMemoryResponse resp => exact h.pushMemoryResponse hw resp
  | popResponse => exact h

theorem step_queuesBlocks_iff (hl : c.SetsWF) (hw : c.SlotsWF) (hbases : c.BasesAligned)
    (h : c.QueuesBlocks) (op : Op) : (c.step op).QueuesBlocks ↔ c.OpensNoLarge op := by
  cases op with
  | pushRequest req => exact iff_of_true h trivial
  | cycle => exact cycle_queuesBlocks_iff hw hbases h
  | popMissRequest =>
    refine iff_of_true (fun m hm => h m ?_) trivial
    rcases List.mem_append.mp hm with hm | hm
    · exact List.mem_append_left _ (List.mem_of_mem_tail hm)
    · exact List.mem_append_right _ hm
  | popWbRequest =>
    refine iff_of_true (fun m hm => h m ?_) trivial
    rcases List.mem_append.mp hm with hm | hm
    · exact List.mem_append_left _ hm
    · exact List.mem_append_right _ (List.mem_of_mem_tail hm)
  | pushMemoryResponse resp => exact iff_of_true (h.pushMemoryResponse hl hw hbases resp) trivial
  | popResponse => exact iff_of_true h trivial

/-- A bank in a run, with what it has opened begun at a block. -/
structure Based (c : Cache) : Prop where
  sets : c.SetsWF
  slots : c.SlotsWF
  bases : c.BasesAligned

theorem based_init : init.Based where
  sets := setsWF_init
  slots := slotsWF_init
  bases := fun _ hs => absurd hs List.not_mem_nil

theorem Based.step (h : c.Based) (op : Op) : (c.step op).Based where
  sets := step_setsWF h.sets h.slots op
  slots := h.slots.step op
  bases := h.bases.step h.slots op

/-- In a run of a bank, every access queued for the memory is for one block, exactly when no cycle opens a
large object. -/
theorem Run.queuesBlocks_iff {t : List (Cache × Op)} (run : Run t c) :
    Machine.Always QueuesBlocks t c ↔ Machine.EachStep OpensNoLarge t := by
  have key := run.always_iff_eachStep (I := Based) (P := QueuesBlocks) (R := fun _ _ => True)
    (C := OpensNoLarge) based_init ?_ ?_ ?_
  · rw [← key]
    exact ⟨fun hall => ⟨hall, fun _ _ => trivial⟩, fun hboth => hboth.1⟩
  · intro c op d hc hs
    exact hs ▸ hc.step op
  · intro m hm
    simp [init] at hm
  · intro c op d hc hq hs
    rw [hs, and_iff_left trivial]
    exact step_queuesBlocks_iff hc.sets hc.slots hc.bases hq op

end Cache

end OnnxSim
