import OnnxSim.Cache.Dirty

/-!
# Fetching one block through an idle bank

A request for a single absent block that meets an idle bank is issued in the next cycle, and the
answer to its only sub-request fills the block and leaves the bank idle again. Runs that need a
particular block resident are built from such fetches.
-/

namespace OnnxSim

namespace Cache

/-- The initial bank holds no block. -/
theorem init_not_resident (a : AddrType) : ¬ init.Resident a := by
  intro h
  rw [← checkHit_iff] at h
  obtain ⟨hv, -⟩ := CacheSet.findTag_spec (setsWF_init (setIndex a)) (of_decide_eq_true h)
  simp [init] at hv

/-- Nothing is pending and every slot is free. -/
structure Idle (c : Cache) : Prop where
  inQ : c.inQ = []
  missQ : c.missQ = []
  activeSlots : c.activeSlots = []
  freeSlots : c.freeSlots = List.range MAX_PENDING_OBJS

theorem freeSlots_cons : ∃ slots, List.range MAX_PENDING_OBJS = 0 :: slots :=
  ⟨_, List.range_succ_eq_map⟩

theorem processMany_nil (n : Nat) {c : Cache} (hq : c.inQ = []) : processMany n c = c := by
  cases n with
  | zero => rfl
  | succ n =>
    rw [processMany, processOneRequest_nil hq]
    rfl

/-- A cycle of a bank with a single request and no pending object. -/
theorem cycle_single {c : Cache} (h : c.SlotsWF) (hidle : c.activeSlots = []) (hone : c.processOneRequest.1 = true)
    (hrest : c.processOneRequest.2.inQ = []) :
    c.cycle = c.processOneRequest.2 ∧ c ∈ c.processPoints := by
  have hcount : c.activePending = 0 := by
    rw [h.count, hidle]
    rfl
  have hcont : c.continueIssues = c := by
    rw [continueIssues, hcount]
    rfl
  have hroom : c.activePending < MAX_PENDING_OBJS - 16 := by
    rw [hcount]
    decide
  have hmany : ∀ n, processMany (n + 1) c = c.processOneRequest.2 := by
    intro n
    have : processMany (n + 1) c = processMany n c.processOneRequest.2 := by
      simp [processMany, hone]
    rw [this, processMany_nil n hrest]
  refine ⟨?_, ?_⟩
  · rw [cycle, hcont, processRequests, if_pos hroom]
    exact hmany _
  · rw [processPoints, hcont, if_pos hroom]
    simp [MAX_IN_PER_CYCLE, pointsMany]

/-- The object of `req`, after its blocks `subs` have been issued. -/
structure FetchIssued (c c' : Cache) (req : MemoryAccess) (subs : List MemoryAccess) : Prop where
  missQ : c'.missQ = subs
  length : subs.length = nBlocks req.objectSize
  blocks : ∀ i m, subs[i]? = some m → m.id = 0 ∧
    m.dramAddress = blockBase req.dramAddress + BitVec.ofNat 64 (i * BLOCK_SIZE)
  active : c'.activeSlots = [0]
  inQ : c'.inQ = []
  freeSlots : 0 :: c'.freeSlots = List.range MAX_PENDING_OBJS
  sets : c'.sets = c.sets
  wbQ : c'.wbQ = c.wbQ
  outQ : c'.outQ = c.outQ
  object : (c'.pending 0).totalBlocks = nBlocks req.objectSize ∧
    (c'.pending 0).issuedBlocks = nBlocks req.objectSize ∧
    (c'.pending 0).returnedBlocks = 0 ∧ (c'.pending 0).isWrite = req.write ∧
    (c'.pending 0).coreId = req.coreId ∧ (c'.pending 0).waitingReqs = [req]

/-- A miss that meets an idle bank gets slot 0. -/
theorem Idle.takes_slot {c : Cache} (h : c.SlotsWF) (hidle : c.Idle) {req : MemoryAccess}
    (hmiss : ¬ c.Resident req.dramAddress) :
    ∃ slots, List.range MAX_PENDING_OBJS = 0 :: slots ∧
      (c.pushRequest req).processOneRequest =
        (true, if LARGE_OBJ_THRESHOLD ≤ req.objectSize then
          ((c.pushRequest req).openMiss 0 slots req []).issueBurst 0 req
        else ((c.pushRequest req).openMiss 0 slots req []).issueFirst 0) := by
  have hslots : (c.pushRequest req).SlotsWF := h.step (.pushRequest req)
  have hq : (c.pushRequest req).inQ = [req] := by simp [pushRequest, hidle.inQ]
  have hnone : ∀ i, c.idToSlot i = none := by
    intro i
    cases hi : c.idToSlot i with
    | none => rfl
    | some s =>
      have := ((h.ids i s).mp hi).1
      simp [hidle.activeSlots] at this
  have hmissed : (c.pushRequest req).checkHit req.dramAddress = false := by
    rw [← Bool.not_eq_true, checkHit_iff]
    exact hmiss
  obtain ⟨slots, hfree⟩ := freeSlots_cons
  have hc : c.freeSlots = 0 :: slots := hidle.freeSlots.trans hfree
  refine ⟨slots, hfree, ?_⟩
  cases processOneRequest_cases hslots hq with
  | hit hit eq => exact absurd hit (by simp [hmissed])
  | coalesced _ slot find lt eq =>
    have hnf : (c.pushRequest req).findPendingSlot req.id = MAX_PENDING_OBJS := by
      simp [findPendingSlot, pushRequest, hnone]
    omega
  | full _ _ free _ =>
    have hnil : c.freeSlots = [] := free
    rw [hc] at hnil
    cases hnil
  | burst _ _ slot slots' free large eq =>
    have hcons : c.freeSlots = slot :: slots' := free
    rw [hc] at hcons
    obtain ⟨rfl, rfl⟩ := List.cons.inj hcons
    rw [eq, if_pos large]
  | blocks _ _ slot slots' free small eq =>
    have hcons : c.freeSlots = slot :: slots' := free
    rw [hc] at hcons
    obtain ⟨rfl, rfl⟩ := List.cons.inj hcons
    rw [eq, if_neg small]

theorem cycle_fetch {c : Cache} (h : c.SlotsWF) (hidle : c.Idle) {req : MemoryAccess}
    (hsmall : req.objectSize < LARGE_OBJ_THRESHOLD) (hmiss : ¬ c.Resident req.dramAddress) :
    ∃ subs, FetchIssued c (c.pushRequest req).cycle req subs := by
  have hslots : (c.pushRequest req).SlotsWF := h.step (.pushRequest req)
  obtain ⟨slots, hfree, eq⟩ := hidle.takes_slot h hmiss
  rw [if_neg (by omega)] at eq
  generalize hopen : (c.pushRequest req).openMiss 0 slots req [] = d at eq
  have hd : d = (c.pushRequest req).openMiss 0 slots req [] := hopen.symm
  have hmissd : d.missQ = [] := by rw [hd]; simp [openMiss, openSlot, pushRequest, hidle.missQ]
  have hpo : d.pending 0 = { c.pending 0 with
      totalBlocks := nBlocks req.objectSize, issuedBlocks := 0, returnedBlocks := 0,
      baseAddr := blockBase req.dramAddress, objSize := req.objectSize, isWrite := req.write,
      coreId := req.coreId, originalId := req.id, active := true, waitingReqs := [req],
      activeSlotsIdx := 0 } := by
    rw [hd]
    simp [openMiss, openSlot, pushRequest, hidle.activeSlots]
  -- the miss queue has room for every object below the threshold
  have hissue : d.toIssue 0 = nBlocks req.objectSize := by
    simp only [toIssue, hmissd, hpo, sub32, MAX_MISS_Q_DEPTH, List.length_nil, nBlocks, BLOCK_SIZE]
    unfold LARGE_OBJ_THRESHOLD at hsmall
    omega
  obtain ⟨⟨fs, fa, -, fi, fw, fo, ff, -⟩, hpend, subs, hsq, hlen, hsub⟩ := issueFirst_spec d 0
  rw [hissue] at hpend hlen
  have hinQ : (d.issueFirst 0).inQ = [] := by
    rw [fi, hd]
    rfl
  have hcyc := cycle_single hslots hidle.activeSlots (by rw [eq]) (by rw [eq]; exact hinQ)
  rw [hcyc.1, eq]
  refine ⟨subs, ?_, hlen, fun i m hm => ?_, ?_, hinQ, ?_, ?_, ?_, ?_, ?_⟩
  · rw [hsq, hmissd]
    rfl
  · have hblock := hsub i m hm
    have haddr := hblock.address
    rw [hpo] at haddr
    exact ⟨hblock.id, by simpa using haddr⟩
  · rw [fa, hd]
    simp [openMiss, openSlot, pushRequest, hidle.activeSlots]
  · rw [ff, hd, hfree]
    rfl
  · rw [fs, hd]
    rfl
  · rw [fw, hd]
    rfl
  · rw [fo, hd]
    rfl
  · simp [hpend, hpo]

theorem FillSpec.congr {c d c' d' : Cache} {a : AddrType} {wr : Bool} (h : FillSpec c c' a wr)
    (hs : d.sets = c.sets) (hq : d.wbQ = c.wbQ) (hs' : d'.sets = c'.sets) (hq' : d'.wbQ = c'.wbQ) :
    FillSpec d d' a wr := by
  have hl : ∀ b, d.line b = c.line b := fun b => by rw [line, line, hs]
  have hl' : ∀ b, d'.line b = c'.line b := fun b => by rw [line, line, hs']
  obtain ⟨hwf, ⟨e, he, hed⟩, hrest⟩ := h
  refine ⟨fun si => hs' ▸ hwf si, ⟨e, (hl' a).trans he, ?_⟩, ?_⟩
  · rw [hed, Dirty, Dirty, hl]
  · simp only [hl, hl', hq, hq', Queues] at hrest ⊢
    exact hrest

/-- The answer to the only sub-request of `req` fills the block, answers `req` and frees the
slot. -/
theorem FetchIssued.respond {c c' : Cache} {req m : MemoryAccess} (hf : FetchIssued c c' req [m])
    (hl : c.SetsWF) (h : c'.SlotsWF) :
    (c'.popMissRequest.pushMemoryResponse m.answered).Idle ∧
      FillSpec c (c'.popMissRequest.pushMemoryResponse m.answered) (blockBase req.dramAddress)
        req.write := by
  have hslots : c'.popMissRequest.SlotsWF := h.step .popMissRequest
  have hmem : (0 : Nat) ∈ c'.popMissRequest.activeSlots := by
    show (0 : Nat) ∈ c'.activeSlots
    simp [hf.active]
  obtain ⟨hid, haddr0⟩ := hf.blocks 0 m rfl
  have hone : nBlocks req.objectSize = 1 := hf.length.symm
  have hact : (c'.popMissRequest.pending m.answered.id).active = true := by
    rw [MemoryAccess.answered_id, hid]
    exact (hslots.active 0).mpr hmem
  have hlt : m.answered.id < MAX_PENDING_OBJS := by
    rw [MemoryAccess.answered_id, hid]
    decide
  have haddr : blockBase m.answered.dramAddress = blockBase req.dramAddress := by
    show blockBase m.dramAddress = _
    rw [haddr0]
    simpa using blockBase_eq_of_sameBlock (sameBlock_blockBase req.dramAddress)
  obtain ⟨htotal, hissued, hret, hwrite, -, -⟩ := hf.object
  rw [hone] at htotal hissued
  refine ⟨?_, ?_⟩
  · rw [pushMemoryResponse_counted hact hlt, MemoryAccess.answered_id, hid]
    generalize hd : (c'.popMissRequest.fill (blockBase m.answered.dramAddress)
      (c'.popMissRequest.pending 0).isWrite (c'.popMissRequest.pending 0).coreId).countReturn 0 = d
    have hd' : d.SlotsWF := hd ▸ (hslots.fill _ _ _).countReturn (by simpa using hmem)
    have hda : d.activeSlots = [0] := by simp [← hd, countReturn, popMissRequest, hf.active]
    have hdm : d.missQ = [] := by simp [← hd, countReturn, popMissRequest, hf.missQ]
    have hdi : d.inQ = [] := by simp [← hd, countReturn, popMissRequest, hf.inQ]
    have hdf : 0 :: d.freeSlots = List.range MAX_PENDING_OBJS := by
      rw [← hf.freeSlots]
      simp [← hd, countReturn, popMissRequest]
    have hdt : (d.pending 0).totalBlocks = 1 ∧ (d.pending 0).issuedBlocks = 1 ∧
        (d.pending 0).returnedBlocks = 1 := by
      simp [← hd, countReturn, popMissRequest, htotal, hissued, hret]
    have hre : d.reissue 0 = d := by simp [reissue, hdt]
    rw [hre, complete, if_pos (by omega)]
    have hout := hd'.answerWaiting 0
    have hd0 : (0 : Nat) ∈ (d.answerWaiting 0).activeSlots := by
      show (0 : Nat) ∈ d.activeSlots
      simp [hda]
    obtain ⟨ha, -, hfr, -⟩ := freePendingSlot_lists hout hd0
    refine ⟨by simpa using hdi, by simpa using hdm, ?_, ?_⟩
    · have hidx : (d.pending 0).activeSlotsIdx = 0 := hd'.index 0 0 (by simp [hda])
      simp [ha, hda, hidx, SwapRemove.swapRemove]
    · simpa [hfr] using hdf
  · obtain ⟨hsets, hq⟩ := pushMemoryResponse_sets hact hlt
    rw [MemoryAccess.answered_id, hid, haddr] at hsets hq
    have hw : (c'.popMissRequest.pending 0).isWrite = req.write := hwrite
    have hl' : c'.popMissRequest.SetsWF := fun si => by
      show (c'.sets si).WF
      rw [hf.sets]
      exact hl si
    have hfill := fill_spec hl' (blockBase req.dramAddress) (c'.popMissRequest.pending 0).isWrite
      (c'.popMissRequest.pending 0).coreId
    rw [hw] at hfill hsets hq
    exact hfill.congr hf.sets.symm hf.wbQ.symm hsets hq

end Cache

namespace Bank

/-- A bank with nothing pending, whose memory owes it no block. -/
structure Idle (b : Bank) : Prop where
  l2 : b.l2.Idle
  slots : b.l2.SlotsWF
  sets : b.l2.SetsWF
  missMem : b.missMem = []

theorem idle_init : Idle {} where
  l2 := ⟨rfl, rfl, rfl, by simp only⟩
  slots := Cache.slotsWF_init
  sets := Cache.setsWF_init
  missMem := rfl

/-- One block is requested, fetched from memory and filled. -/
def fetch (req : MemoryAccess) : List Act :=
  [.pushRequest req, .cycle, .popMissRequest, .answerMiss 0]

theorem fetch_idle {b : Bank} (h : b.Idle) {req : MemoryAccess} (hone : Cache.nBlocks req.objectSize = 1)
    (hsmall : req.objectSize < LARGE_OBJ_THRESHOLD)
    (hmiss : ¬ b.l2.Resident req.dramAddress) :
    ∃ b', (fetch req).foldlM step b = some b' ∧ b'.Idle ∧ b'.wbMem = b.wbMem ∧
      Cache.FillSpec b.l2 b'.l2 (Cache.blockBase req.dramAddress) req.write := by
  obtain ⟨subs, hf⟩ := Cache.cycle_fetch h.slots h.l2 hsmall hmiss
  obtain ⟨m, rfl⟩ := List.length_eq_one_iff.mp (hf.length.trans hone)
  have hslots : (b.l2.pushRequest req).cycle.SlotsWF :=
    (h.slots.step (.pushRequest req)).step .cycle
  obtain ⟨hidle, hfill⟩ := hf.respond h.sets hslots
  refine ⟨{ b with
    l2 := (b.l2.pushRequest req).cycle.popMissRequest.pushMemoryResponse m.answered,
    missMem := [], pushed := b.pushed ++ [req] }, ?_, ⟨hidle, ?_, hfill.wf, rfl⟩, rfl, hfill⟩
  · simp [fetch, step, hf.missQ, h.missMem]
  · exact (hslots.step .popMissRequest).step (.pushMemoryResponse m.answered)

end Bank

end OnnxSim
