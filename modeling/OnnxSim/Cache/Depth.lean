import OnnxSim.Cache.Headroom

/-!
# The depth of the miss queue

`issue_blocks` issues no more blocks than there is room for in `_miss_q`, and its callers look for room
first. The large-object path does not: it pushes its access whatever the queue holds. So the queue stays
within `MAX_MISS_Q_DEPTH` exactly as long as no large object is opened while it is full, and from a
queue beyond the bound the subtraction of `issue_blocks` wraps.
-/

namespace OnnxSim

namespace Cache

/-- The miss queue is within its bound, and no call of `issue_blocks` would take it beyond. -/
structure DepthBound (c : Cache) : Prop where
  depth : c.missQ.length ≤ MAX_MISS_Q_DEPTH
  room : ∀ slot, c.missQ.length + c.toIssue slot ≤ MAX_MISS_Q_DEPTH

/-- Within the bound the subtraction does not wrap. -/
theorem depthBound_iff (c : Cache) : c.DepthBound ↔ c.missQ.length ≤ MAX_MISS_Q_DEPTH := by
  refine ⟨DepthBound.depth, fun h => ⟨h, fun slot => ?_⟩⟩
  unfold toIssue
  dsimp only
  rw [sub32_of_le h (by unfold MAX_MISS_Q_DEPTH; decide)]
  omega

/-- The head of the input queue is a large-object miss that gets a slot. -/
def TakesBurst (c : Cache) : Prop :=
  ∃ req, c.inQ.head? = some req ∧ c.checkHit req.dramAddress = false ∧
    ¬ c.findPendingSlot req.id < MAX_PENDING_OBJS ∧ c.freeSlots ≠ [] ∧
    LARGE_OBJ_THRESHOLD ≤ req.objectSize

/-- A large object is opened while the miss queue is full. -/
def BurstOverflows (c : Cache) : Prop := c.TakesBurst ∧ MAX_MISS_Q_DEPTH ≤ c.missQ.length

/-- No call of `process_one_request` in the step opens a large object while the queue is full. -/
def BurstsFit (c : Cache) : Op → Prop
  | .cycle => ∀ d ∈ c.processPoints, d.TakesBurst → d.missQ.length < MAX_MISS_Q_DEPTH
  | _ => True

/-- In a cycle, every call of `process_one_request` finds the miss queue within its bound. -/
def CallsBounded (c : Cache) : Op → Prop
  | .cycle => ∀ d ∈ c.processPoints, d.DepthBound
  | _ => True

/-! ## One call -/

theorem takesBurst_iff {c : Cache} {req : MemoryAccess} {rest : List MemoryAccess}
    (hq : c.inQ = req :: rest) : c.TakesBurst ↔ c.checkHit req.dramAddress = false ∧
      ¬ c.findPendingSlot req.id < MAX_PENDING_OBJS ∧ c.freeSlots ≠ [] ∧
      LARGE_OBJ_THRESHOLD ≤ req.objectSize := by
  simp [TakesBurst, hq]

/-- What a call of `process_one_request` queues: one access for a large object, and otherwise no more
than fits. -/
theorem processOneRequest_missQ {c : Cache} (h : c.SlotsWF) :
    ∃ subs, c.processOneRequest.2.missQ = c.missQ ++ subs ∧
      (c.TakesBurst → subs.length = 1) ∧ (¬ c.TakesBurst → c.missQ.length ≤ MAX_MISS_Q_DEPTH →
        c.missQ.length + subs.length ≤ MAX_MISS_Q_DEPTH) := by
  cases hq : c.inQ with
  | nil =>
    rw [processOneRequest_nil hq]
    exact ⟨[], by simp, by simp [TakesBurst, hq], by simp⟩
  | cons req rest =>
    have hburst := takesBurst_iff hq
    cases processOneRequest_cases h hq with
    | hit hit eq =>
      rw [eq]
      exact ⟨[], by simp, by simp [hburst, hit], by simp⟩
    | coalesced _ slot find lt eq =>
      rw [eq]
      refine ⟨[], by simp, ?_, by simp⟩
      rw [hburst, find]
      exact fun hb => absurd lt hb.2.1
    | full _ _ free eq =>
      rw [eq]
      exact ⟨[], by simp, by simp [hburst, free], by simp⟩
    | burst miss find slot slots free large eq =>
      rw [eq]
      obtain ⟨-, -, m, hm, -⟩ := issueBurst_spec (c.openMiss slot slots req rest) slot req
      refine ⟨[m], hm, fun _ => rfl, fun hnot => absurd ?_ hnot⟩
      rw [hburst, free]
      exact ⟨miss, find, by simp, large⟩
    | blocks _ _ slot slots _ small eq =>
      rw [eq]
      obtain ⟨-, -, subs, hsq, hlen, -⟩ := issueFirst_spec (c.openMiss slot slots req rest) slot
      refine ⟨subs, hsq, fun hb => absurd (hburst.mp hb).2.2.2 small, fun _ hle => ?_⟩
      have hroom := ((depthBound_iff (c.openMiss slot slots req rest)).mpr hle).room slot
      rw [hlen]
      exact hroom

theorem processOneRequest_depth {c : Cache} (h : c.SlotsWF) :
    c.missQ.length ≤ c.processOneRequest.2.missQ.length := by
  obtain ⟨subs, hq, -⟩ := processOneRequest_missQ h
  rw [hq, List.length_append]
  exact Nat.le_add_right _ _

/-- The bound is kept unless a large object is opened while the queue is full. -/
theorem processOneRequest_bounded {c : Cache} (h : c.SlotsWF) (hle : c.missQ.length ≤ MAX_MISS_Q_DEPTH)
    (hfits : ¬ c.BurstOverflows) : c.processOneRequest.2.missQ.length ≤ MAX_MISS_Q_DEPTH := by
  obtain ⟨subs, hq, hone, hmany⟩ := processOneRequest_missQ h
  rw [hq, List.length_append]
  by_cases hburst : c.TakesBurst
  · have hlt : c.missQ.length < MAX_MISS_Q_DEPTH :=
      Nat.lt_of_not_le fun hfull => hfits ⟨hburst, hfull⟩
    rw [hone hburst]
    exact hlt
  · exact hmany hburst hle

theorem processOneRequest_overfull {c : Cache} (h : c.SlotsWF) (hover : c.BurstOverflows) :
    MAX_MISS_Q_DEPTH < c.processOneRequest.2.missQ.length := by
  obtain ⟨subs, hq, hone, -⟩ := processOneRequest_missQ h
  rw [hq, List.length_append, hone hover.1]
  exact Nat.lt_succ_of_le hover.2

/-! ## The entry points -/

theorem issueBlocks_bounded {c : Cache} (hle : c.missQ.length ≤ MAX_MISS_Q_DEPTH) (slot : Nat) :
    (c.issueBlocks slot).missQ.length ≤ MAX_MISS_Q_DEPTH := by
  obtain ⟨subs, hq, hlen, -⟩ := (issueBlocks_spec c slot).subs
  rw [hq, List.length_append, hlen]
  exact ((depthBound_iff c).mpr hle).room slot

theorem continueIssues_bounded {c : Cache} (hle : c.missQ.length ≤ MAX_MISS_Q_DEPTH) :
    c.continueIssues.missQ.length ≤ MAX_MISS_Q_DEPTH := by
  refine continueIssues_induction (P := fun d => d.missQ.length ≤ MAX_MISS_Q_DEPTH)
    continueIssue_activeSlots (fun d s _ hd => ?_) hle
  unfold continueIssue
  split
  · exact hd
  · split
    · exact issueBlocks_bounded hd s
    · exact hd

theorem pushMemoryResponse_bounded {c : Cache} (h : c.SlotsWF)
    (hle : c.missQ.length ≤ MAX_MISS_Q_DEPTH) (resp : MemoryAccess) :
    (c.pushMemoryResponse resp).missQ.length ≤ MAX_MISS_Q_DEPTH := by
  cases ha : (c.pending resp.id).active with
  | false =>
    rw [pushMemoryResponse_ignored (.inl ha), (poolRelease_frame c resp.ptr).2.2.2.2.2.1]
    exact hle
  | true =>
    rw [pushMemoryResponse_counted ha (h.lt ((h.active _).mp ha))]
    simp only [poolRelease_frame, complete_frame]
    unfold reissue
    split
    · exact issueBlocks_bounded (by simpa [countReturn] using hle) _
    · simpa [countReturn] using hle

/-- The calls of a cycle keep the bound exactly when no large object is opened while the queue is full,
and then each of them finds the queue within the bound. -/
theorem cycle_bounded_iff {c : Cache} (h : c.SlotsWF) (hle : c.missQ.length ≤ MAX_MISS_Q_DEPTH) :
    c.cycle.missQ.length ≤ MAX_MISS_Q_DEPTH ∧ c.CallsBounded .cycle ↔ c.BurstsFit .cycle := by
  have hcont := continueIssues_bounded hle
  have key := processRequests_iff
    (P := fun d => d.SlotsWF ∧ d.missQ.length ≤ MAX_MISS_Q_DEPTH)
    (M := fun d => d.SlotsWF ∧ MAX_MISS_Q_DEPTH < d.missQ.length) (B := BurstOverflows)
    (c := c.continueIssues)
    (fun d hd hB => ⟨hd.1.processOneRequest, processOneRequest_bounded hd.1 hd.2 hB⟩)
    (fun d hd hB => ⟨hd.1.processOneRequest, processOneRequest_overfull hd.1 hB⟩)
    (fun d hd => ⟨hd.1.processOneRequest, hd.2.trans_le (processOneRequest_depth hd.1)⟩)
    (fun d hd hP => absurd hP.2 (Nat.not_le_of_lt hd.2)) ⟨h.continueIssues, hcont⟩
  have hbursts : c.BurstsFit .cycle ↔ ∀ d ∈ c.processPoints, ¬ d.BurstOverflows := by
    refine forall₂_congr fun d _ => ?_
    rw [BurstOverflows, not_and, Nat.not_le]
  rw [hbursts]
  constructor
  · rintro ⟨hend, -⟩
    exact key.mp ⟨h.cycle, hend⟩
  · intro hnone
    refine ⟨(key.mpr hnone).2, fun d hd => (depthBound_iff d).mpr ?_⟩
    have hpoints := processPoints_forall_of
      (P := fun d => d.SlotsWF ∧ d.missQ.length ≤ MAX_MISS_Q_DEPTH) (B := BurstOverflows)
      (fun d hd hB => ⟨hd.1.processOneRequest, processOneRequest_bounded hd.1 hd.2 hB⟩)
      ⟨h.continueIssues, hcont⟩ hnone
    exact (hpoints d hd).2

theorem step_bounded_iff {c : Cache} (h : c.SlotsWF) (hbound : c.DepthBound) (op : Op) :
    (c.step op).DepthBound ∧ c.CallsBounded op ↔ c.BurstsFit op := by
  have hle := hbound.depth
  rw [depthBound_iff]
  cases op with
  | pushRequest req => exact iff_of_true ⟨hle, trivial⟩ trivial
  | cycle => exact cycle_bounded_iff h hle
  | popMissRequest =>
    have htail : c.missQ.tail.length ≤ c.missQ.length := by
      rw [List.length_tail]
      exact Nat.sub_le _ _
    exact iff_of_true ⟨htail.trans hle, trivial⟩ trivial
  | popWbRequest => exact iff_of_true ⟨hle, trivial⟩ trivial
  | pushMemoryResponse resp =>
    exact iff_of_true ⟨pushMemoryResponse_bounded h hle resp, trivial⟩ trivial
  | popResponse => exact iff_of_true ⟨hle, trivial⟩ trivial

/-- The miss queue of a bank stays within its bound, in every state of a run and at every call inside
its cycles, exactly when no cycle opens a large object while the queue is full. -/
theorem Run.depth_bounded_iff {t : List (Cache × Op)} {c : Cache} (run : Run t c) :
    Machine.Always DepthBound t c ∧ Machine.EachStep CallsBounded t ↔
      Machine.EachStep BurstsFit t := by
  refine Machine.Run.always_iff_eachStep run slotsWF_init (fun _ op _ h hs => hs ▸ h.step op)
    ((depthBound_iff init).mpr (Nat.zero_le _)) fun c op _ h hbound hs => ?_
  obtain rfl := hs
  exact step_bounded_iff h hbound op

/-! ## A large object behind a full queue -/

/-- A read of as many blocks as an object below the large-object threshold has at most. -/
def readBelow (k : Nat) : MemoryAccess :=
  { ptr := .heap k, id := k, dramAddress := 0, size := 393215, objectSize := 393215, write := false,
    request := true, coreId := 0, bufferId := 0 }

/-- The bank holds nothing but the objects of the ids below `n`, and no line. -/
structure Opened (c : Cache) (n : Nat) : Prop where
  slots : c.SlotsWF
  sets : c.sets = init.sets
  ids : ∀ i, n ≤ i → c.idToSlot i = none
  count : c.activeSlots.length = n

theorem Opened.misses {c : Cache} {n : Nat} (h : c.Opened n) (a : AddrType) : c.checkHit a = false := by
  rw [← Bool.not_eq_true, checkHit_iff, Resident, line, h.sets]
  exact init_not_resident a

/-- A miss of a new id opens the next object. -/
theorem Opened.process {c : Cache} {n : Nat} (h : c.Opened n) (hn : n < MAX_PENDING_OBJS)
    {req : MemoryAccess} {rest : List MemoryAccess} (hq : c.inQ = req :: rest) (hid : req.id = n) :
    c.processOneRequest.1 = true ∧ c.processOneRequest.2.Opened (n + 1) ∧
      c.processOneRequest.2.inQ = rest ∧ (LARGE_OBJ_THRESHOLD ≤ req.objectSize → c.TakesBurst) ∧
      (req.objectSize < LARGE_OBJ_THRESHOLD → c.processOneRequest.2.missQ.length = c.missQ.length +
        min (sub32 MAX_MISS_Q_DEPTH c.missQ.length) (nBlocks req.objectSize)) := by
  have hwf := h.slots.processOneRequest
  have hfree := h.slots.freeSlots_ne_nil (h.count.symm ▸ hn)
  have hnew : ∀ {slot : Nat} {d : Cache}, d.sets = c.sets →
      d.activeSlots = c.activeSlots ++ [slot] →
      d.idToSlot = Function.update c.idToSlot req.id (some slot) → d.SlotsWF → d.Opened (n + 1) := by
    intro slot d hsets hactive hids hd
    refine ⟨hd, hsets.trans h.sets, fun i hi => ?_, ?_⟩
    · rw [hids, hid, Function.update_of_ne (Nat.ne_of_gt hi)]
      exact h.ids i (Nat.le_of_succ_le hi)
    · rw [hactive, List.length_append, h.count]
      rfl
  cases processOneRequest_cases h.slots hq with
  | hit hit => exact absurd hit (by simp [h.misses])
  | coalesced _ slot find lt =>
    have hnone : c.findPendingSlot req.id = MAX_PENDING_OBJS := by
      simp [findPendingSlot, hid, h.ids n le_rfl]
    omega
  | full _ _ free => exact absurd free hfree
  | burst miss find slot slots free large eq =>
    obtain ⟨⟨fs, fa, -, fi, -, -, -, fids⟩, -⟩ :=
      issueBurst_spec (c.openMiss slot slots req rest) slot req
    rw [eq] at hwf ⊢
    refine ⟨rfl, hnew fs fa fids hwf, fi, fun _ => ?_, fun hsmall => ?_⟩
    · exact (takesBurst_iff hq).mpr ⟨miss, find, hfree, large⟩
    · omega
  | blocks miss find slot slots free small eq =>
    obtain ⟨⟨fs, fa, -, fi, -, -, -, fids⟩, -, subs, hsq, hlen, -⟩ :=
      issueFirst_spec (c.openMiss slot slots req rest) slot
    rw [eq] at hwf ⊢
    refine ⟨rfl, hnew fs fa fids hwf, fi, fun hlarge => absurd hlarge small, fun _ => ?_⟩
    have hblocks : sub32 (nBlocks req.objectSize) 0 = nBlocks req.objectSize := by
      unfold sub32 nBlocks BLOCK_SIZE
      omega
    have hissue : (c.openMiss slot slots req rest).toIssue slot =
        min (sub32 MAX_MISS_Q_DEPTH c.missQ.length) (nBlocks req.objectSize) := by
      rw [← hblocks]
      simp [toIssue, openMiss, openSlot, hblocks]
    rw [hsq, List.length_append, hlen, hissue]
    rfl

theorem processMany_more {c : Cache} (h : c.processOneRequest.1 = true) (m : Nat) :
    processMany (m + 1) c = processMany m c.processOneRequest.2 := by
  simp [processMany, h]

/-- Reads just below the threshold fill the miss queue. -/
theorem Opened.fill {c : Cache} {n k : Nat} (h : c.Opened n) (hk : n + k < MAX_PENDING_OBJS)
    {rest : List MemoryAccess} (hq : c.inQ = (List.range' n k).map readBelow ++ rest)
    (hlen : c.missQ.length = min MAX_MISS_Q_DEPTH (3072 * n)) :
    ∃ d : Cache, (∀ m, processMany (m + k) c = processMany m d) ∧ d.Opened (n + k) ∧ d.inQ = rest ∧
      d.missQ.length = min MAX_MISS_Q_DEPTH (3072 * (n + k)) := by
  induction k generalizing c n with
  | zero => exact ⟨c, fun _ => rfl, h, by simpa using hq, hlen⟩
  | succ k ih =>
    rw [List.range'_succ, List.map_cons, List.cons_append] at hq
    obtain ⟨hmore, hopened, hrest, -, hmissQ⟩ := h.process (by omega) hq rfl
    have hblocks : nBlocks (readBelow n).objectSize = 3072 := by
      show nBlocks 393215 = 3072
      decide
    have hsmall : (readBelow n).objectSize < LARGE_OBJ_THRESHOLD := by
      show 393215 < LARGE_OBJ_THRESHOLD
      decide
    have hdepth : c.missQ.length ≤ MAX_MISS_Q_DEPTH := hlen.trans_le (min_le_left _ _)
    have hmissQ := hmissQ hsmall
    rw [hblocks, sub32_of_le hdepth (by unfold MAX_MISS_Q_DEPTH; decide)] at hmissQ
    obtain ⟨d, hd, hopened, hrest, hfull⟩ := ih hopened (by omega) hrest (by omega)
    refine ⟨d, fun m => ?_, ?_, hrest, ?_⟩
    · rw [← Nat.add_assoc, processMany_more hmore, hd]
    · rwa [Nat.add_assoc, Nat.add_comm 1 k] at hopened
    · rwa [Nat.add_assoc, Nat.add_comm 1 k] at hfull

/-- Six reads fill the miss queue; a large read comes behind them in the same cycle. -/
def burstRequests : List MemoryAccess :=
  (List.range' 0 6).map readBelow ++ [{ readBelow 6 with size := 393216, objectSize := 393216 }]

def burstRun : List Op := burstRequests.map .pushRequest ++ [.cycle]

theorem pushRequests (l : List MemoryAccess) (c : Cache) :
    (l.map Op.pushRequest).foldl step c = { c with inQ := c.inQ ++ l } := by
  induction l generalizing c with
  | nil => simp
  | cons req l ih =>
    rw [List.map_cons, List.foldl_cons, ih]
    simp [step, pushRequest]

theorem burstRun_overflows :
    MAX_MISS_Q_DEPTH < (burstRun.foldl step init).missQ.length := by
  obtain ⟨c, hc⟩ : ∃ c : Cache, c = { init with inQ := init.inQ ++ burstRequests } := ⟨_, rfl⟩
  have hrun : burstRun.foldl step init = c.cycle := by
    rw [burstRun, List.foldl_append, pushRequests, ← hc, List.foldl_cons, List.foldl_nil, step]
  have hpending : c.activePending = 0 := by
    rw [hc]
    rfl
  have hinQ : c.inQ = burstRequests := by
    rw [hc]
    exact List.nil_append _
  have hmissQ : c.missQ = [] := by
    rw [hc]
    rfl
  have hopened : c.Opened 0 := by
    have hslots : c.SlotsWF := by
      rw [hc, ← pushRequests]
      exact Run.slotsWF (Machine.Run.of_foldl step init _)
    refine ⟨hslots, by rw [hc], fun i _ => ?_, ?_⟩
    · rw [hc]
      rfl
    · rw [hc]
      rfl
  have hcycle : c.cycle = processMany 16 c := by
    have hsame : c.continueIssues = c := by simp [continueIssues, hpending]
    rw [cycle, hsame, processRequests, hpending, if_pos (by decide), MAX_IN_PER_CYCLE]
  have hqueue : c.inQ = (List.range' 0 6).map readBelow ++
      [{ readBelow 6 with size := 393216, objectSize := 393216 }] := by
    rw [hinQ, burstRequests]
  obtain ⟨d, hd, hopen, hrest, hfull⟩ := hopened.fill (by decide) hqueue (by rw [hmissQ]; rfl)
  rw [hrun, hcycle, hd 10]
  obtain ⟨hmore, -, -, htakes, -⟩ := hopen.process (by decide) hrest rfl
  have hover : d.BurstOverflows := by
    refine ⟨htakes (by decide), ?_⟩
    rw [hfull]
    decide
  rw [processMany_more hmore]
  have key : (processMany 9 d.processOneRequest.2).SlotsWF ∧
      MAX_MISS_Q_DEPTH < (processMany 9 d.processOneRequest.2).missQ.length :=
    processMany_induction (P := fun e => e.SlotsWF ∧ MAX_MISS_Q_DEPTH < e.missQ.length)
      (fun e _ he => ⟨he.1.processOneRequest, he.2.trans_le (processOneRequest_depth he.1)⟩)
      ⟨hopen.slots.processOneRequest, processOneRequest_overfull hopen.slots hover⟩
  exact key.2

/-- The queue is over its bound after the large read. -/
theorem burstRun_not_bounded : ¬ ∀ t c, Run t c → Machine.Always DepthBound t c := by
  intro hall
  have hbound := (hall _ _ (Machine.Run.of_foldl step init burstRun)).2.depth
  exact absurd burstRun_overflows (Nat.not_lt_of_le hbound)

/-- A run of one cycle and a pushed read. -/
theorem depth_bounded_iff_read : ∃ t c, Run t c ∧
    (Machine.Always DepthBound t c ∧ Machine.EachStep CallsBounded t ↔
      Machine.EachStep BurstsFit t) := by
  have run : Run _ _ := Machine.Run.of_foldl step init [.pushRequest (readBelow 0), .cycle]
  exact ⟨_, _, run, run.depth_bounded_iff⟩

end Cache

end OnnxSim
