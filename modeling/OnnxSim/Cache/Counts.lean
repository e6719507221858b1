import OnnxSim.Cache.Fetch

/-!
# Counting the blocks of pending objects

A bank counts for each slot the sub-requests it has issued and the answers that came back. The
books are right (`Accounted`) when the difference is the number of sub-requests still on their way,
and then an object is released only after all its blocks have returned. Two things upset them: a
completion of a writeback, whose id is 0, is counted for the object that happens to sit in slot 0,
and an object on the large-object path is entered as fully issued though a single access stands for
it. Apart from these steps the books stay right.
-/

namespace OnnxSim

namespace Cache

/-- The sub-requests of slot `s` in `_miss_q` or among `mem`, the accesses memory holds. -/
def owed (c : Cache) (mem : List MemoryAccess) (s : Nat) : Nat :=
  (c.missQ ++ mem).countP fun m => m.id == s

/-- The counters of every active slot agree with the sub-requests on their way, and these all
belong to active slots. -/
structure Accounted (c : Cache) (mem : List MemoryAccess) : Prop where
  counts : ∀ s ∈ c.activeSlots,
    (c.pending s).issuedBlocks = (c.pending s).returnedBlocks + c.owed mem s
  ids : ∀ m ∈ c.missQ ++ mem, m.id ∈ c.activeSlots

/-- Some active slot has wrong counters. -/
def Miscounted (c : Cache) (mem : List MemoryAccess) : Prop :=
  ∃ s ∈ c.activeSlots, (c.pending s).issuedBlocks ≠ (c.pending s).returnedBlocks + c.owed mem s

theorem Miscounted.not_accounted {c : Cache} {mem : List MemoryAccess} (h : c.Miscounted mem) :
    ¬ c.Accounted mem := by
  obtain ⟨s, hs, hne⟩ := h
  exact fun hacc => hne (hacc.counts s hs)

/-- An active object waits for at least one more block. -/
def Unfinished (c : Cache) : Prop :=
  ∀ s ∈ c.activeSlots, (c.pending s).returnedBlocks < (c.pending s).totalBlocks ∨
    (c.pending s).totalBlocks = 0

/-- The head of the input queue is a large-object miss that gets a slot. A single access will
stand for its blocks. -/
def BurstMiss (c : Cache) : Prop :=
  ∃ req, c.inQ.head? = some req ∧ c.checkHit req.dramAddress = false ∧
    ¬ c.findPendingSlot req.id < MAX_PENDING_OBJS ∧ c.freeSlots ≠ [] ∧
    LARGE_OBJ_THRESHOLD ≤ req.objectSize ∧ nBlocks req.objectSize ≠ 1

section Owed

variable {c c' : Cache} {mem subs : List MemoryAccess} {slot : Nat}

theorem owed_append (hq : c'.missQ = c.missQ ++ subs) (s : Nat) :
    c'.owed mem s = c.owed mem s + subs.countP fun m => m.id == s := by
  unfold owed
  rw [hq]
  simp only [List.countP_append]
  omega

theorem countP_self (hids : ∀ m ∈ subs, m.id = slot) :
    (subs.countP fun m => m.id == slot) = subs.length :=
  List.countP_eq_length.mpr fun m hm => by simp [hids m hm]

theorem countP_other (hids : ∀ m ∈ subs, m.id = slot) {s : Nat} (hs : s ≠ slot) :
    (subs.countP fun m => m.id == s) = 0 :=
  List.countP_eq_zero.mpr fun m hm => by simp [hids m hm, Ne.symm hs]

theorem owed_eq_zero (hids : ∀ m ∈ c.missQ ++ mem, m.id ∈ c.activeSlots)
    (hslot : slot ∉ c.activeSlots) : c.owed mem slot = 0 := by
  refine List.countP_eq_zero.mpr fun m hm heq => hslot ?_
  rw [← beq_iff_eq.mp heq]
  exact hids m hm

end Owed

/-! ## Issuing -/

/-- Issuing blocks raises the count of issued blocks by the number of sub-requests queued. -/
theorem Accounted.issue {c c' : Cache} {mem : List MemoryAccess} (h : c.Accounted mem)
    {slot n : Nat} (hs : slot ∈ c.activeSlots) (hi : IssueSpec c c' slot n) : c'.Accounted mem := by
  obtain ⟨subs, hq, hlen, hsubs⟩ := hi.subs
  have hids : ∀ m ∈ subs, m.id = slot := fun m hm => (hsubs m hm).choose_spec.2.id
  have hact : c'.activeSlots = c.activeSlots := hi.frame.2.1
  refine ⟨fun s hsa => ?_, fun m hm => ?_⟩
  · rw [hact] at hsa
    have := h.counts s hsa
    rw [owed_append hq, hi.pending]
    by_cases hss : s = slot
    · subst hss
      rw [Function.update_self, countP_self hids, hlen]
      simp only
      omega
    · rw [Function.update_of_ne hss, countP_other hids hss]
      exact this
  · rw [hact]
    rw [hq, List.append_assoc, List.mem_append, List.mem_append] at hm
    rcases hm with hm | hm | hm
    · exact h.ids m (List.mem_append_left _ hm)
    · rw [hids m hm]
      exact hs
    · exact h.ids m (List.mem_append_right _ hm)

theorem Accounted.issueBlocks {c : Cache} {mem : List MemoryAccess} (h : c.Accounted mem)
    {slot : Nat} (hs : slot ∈ c.activeSlots) : (c.issueBlocks slot).Accounted mem :=
  h.issue hs (issueBlocks_spec c slot)

theorem Accounted.continueIssues {c : Cache} {mem : List MemoryAccess} (h : c.Accounted mem) :
    c.continueIssues.Accounted mem := by
  refine continueIssues_induction (P := fun d => d.Accounted mem) continueIssue_activeSlots
    (fun d s hs hd => ?_) h
  unfold continueIssue
  split
  · exact hd
  · split
    · exact hd.issueBlocks hs
    · exact hd

/-! ## Processing a request -/

/-- The counters of a slot are the same in `c` and `d`. -/
def SameCounts (c d : Cache) (s : Nat) : Prop :=
  (d.pending s).issuedBlocks = (c.pending s).issuedBlocks ∧
    (d.pending s).returnedBlocks = (c.pending s).returnedBlocks ∧
    (d.pending s).totalBlocks = (c.pending s).totalBlocks

/-- What a call of `process_one_request` does to the counters: nothing, or it opens one slot,
whose count of issued blocks is right unless the call is a `BurstMiss`. -/
inductive ProcessCounts (c d : Cache) : Prop
  | same (active : d.activeSlots = c.activeSlots) (missQ : d.missQ = c.missQ)
      (counts : ∀ s, SameCounts c d s) (small : ¬ c.BurstMiss)
  | opened (slot : Nat) (subs : List MemoryAccess) (new : slot ∉ c.activeSlots)
      (active : d.activeSlots = c.activeSlots ++ [slot]) (missQ : d.missQ = c.missQ ++ subs)
      (ids : ∀ m ∈ subs, m.id = slot) (counts : ∀ s, s ≠ slot → SameCounts c d s)
      (returned : (d.pending slot).returnedBlocks = 0)
      (issued : (d.pending slot).issuedBlocks = subs.length ↔ ¬ c.BurstMiss)

theorem burstMiss_iff {c : Cache} {req : MemoryAccess} {rest : List MemoryAccess}
    (hq : c.inQ = req :: rest) : c.BurstMiss ↔ c.checkHit req.dramAddress = false ∧
      ¬ c.findPendingSlot req.id < MAX_PENDING_OBJS ∧ c.freeSlots ≠ [] ∧
      LARGE_OBJ_THRESHOLD ≤ req.objectSize ∧ nBlocks req.objectSize ≠ 1 := by
  simp [BurstMiss, hq]

theorem openMiss_pending (c : Cache) (slot : Nat) (slots : List Nat) (req : MemoryAccess)
    (rest : List MemoryAccess) :
    (c.openMiss slot slots req rest).pending = Function.update c.pending slot
      { c.pending slot with
        totalBlocks := nBlocks req.objectSize, issuedBlocks := 0, returnedBlocks := 0,
        baseAddr := blockBase req.dramAddress, objSize := req.objectSize, isWrite := req.write,
        coreId := req.coreId, originalId := req.id, active := true, waitingReqs := [req],
        activeSlotsIdx := c.activeSlots.length } := rfl

theorem processOneRequest_counts {c : Cache} (h : c.SlotsWF) :
    ProcessCounts c c.processOneRequest.2 := by
  cases hq : c.inQ with
  | nil =>
    rw [processOneRequest_nil hq]
    exact .same rfl rfl (fun _ => ⟨rfl, rfl, rfl⟩) (by simp [BurstMiss, hq])
  | cons req rest =>
    have hburst := burstMiss_iff hq
    cases processOneRequest_cases h hq with
    | hit hit eq =>
      rw [eq]
      refine .same (by simp) (by simp) (fun s => ⟨by simp, by simp, by simp⟩) ?_
      simp [hburst, hit]
    | coalesced _ slot find lt eq =>
      rw [eq]
      refine .same rfl rfl (fun s => ?_) ?_
      · by_cases hs : s = slot
        · subst hs
          simp [SameCounts]
        · simp [SameCounts, hs]
      · rw [hburst, find]
        exact fun hb => hb.2.1 lt
    | full _ _ free eq =>
      rw [eq]
      refine .same rfl rfl (fun _ => ⟨rfl, rfl, rfl⟩) ?_
      simp [hburst, free]
    | burst miss find slot slots free large eq =>
      rw [eq]
      have hnew : slot ∉ c.activeSlots := fun hs => h.disjoint slot hs (by simp [free])
      obtain ⟨⟨-, ha, -⟩, hpend, m, hm, hid, -, -⟩ :=
        issueBurst_spec (c.openMiss slot slots req rest) slot req
      refine .opened slot [m] hnew ?_ hm (by simpa using hid) (fun s hs => ?_) ?_ ?_
      · rw [ha]
        rfl
      · simp [hpend, openMiss_pending, SameCounts, hs]
      · simp [hpend, openMiss_pending, burstObject]
      · simp [hpend, openMiss_pending, burstObject, hburst, miss, find, free, large]
    | blocks miss find slot slots free small eq =>
      rw [eq]
      have hnew : slot ∉ c.activeSlots := fun hs => h.disjoint slot hs (by simp [free])
      obtain ⟨⟨-, ha, -⟩, hpend, subs, hsq, hlen, hsub⟩ :=
        issueFirst_spec (c.openMiss slot slots req rest) slot
      refine .opened slot subs hnew ?_ hsq (fun m hm => ?_) (fun s hs => ?_) ?_ ?_
      · rw [ha]
        rfl
      · obtain ⟨i, hi⟩ := List.mem_iff_getElem?.mp hm
        exact (hsub i m hi).id
      · simp [hpend, openMiss_pending, SameCounts, hs]
      · simp [hpend, openMiss_pending]
      · simp [hpend, openMiss_pending, hburst, small, hlen]

theorem ProcessCounts.accounted {c d : Cache} {mem : List MemoryAccess} (hp : ProcessCounts c d)
    (h : c.Accounted mem) (hok : ¬ c.BurstMiss) : d.Accounted mem := by
  cases hp with
  | same active missQ counts _ =>
    refine ⟨fun s hs => ?_, ?_⟩
    · obtain ⟨hi, hr, -⟩ := counts s
      rw [hi, hr, owed, missQ]
      exact h.counts s (active ▸ hs)
    · rw [missQ, active]
      exact h.ids
  | opened slot subs new active missQ ids counts returned issued =>
    refine ⟨fun s hs => ?_, fun m hm => ?_⟩
    · rw [owed_append missQ]
      by_cases hss : s = slot
      · subst hss
        rw [returned, owed_eq_zero h.ids new, countP_self ids, issued.mpr hok]
        omega
      · rw [active, List.mem_append, List.mem_singleton] at hs
        obtain ⟨hi, hr, -⟩ := counts s hss
        rw [hi, hr, countP_other ids hss]
        exact h.counts s (hs.resolve_right hss)
    · rw [active, List.mem_append, List.mem_singleton]
      rw [missQ, List.append_assoc, List.mem_append, List.mem_append] at hm
      rcases hm with hm | hm | hm
      · exact .inl (h.ids m (List.mem_append_left _ hm))
      · exact .inr (ids m hm)
      · exact .inl (h.ids m (List.mem_append_right _ hm))

/-- A burst miss leaves its own slot with wrong counters. -/
theorem ProcessCounts.miscounted {c d : Cache} {mem : List MemoryAccess} (hp : ProcessCounts c d)
    (h : c.Accounted mem) (hburst : c.BurstMiss) : d.Miscounted mem := by
  cases hp with
  | same _ _ _ small => exact absurd hburst small
  | opened slot subs new active missQ ids counts returned issued =>
    refine ⟨slot, by simp [active], ?_⟩
    rw [owed_append missQ, returned, owed_eq_zero h.ids new, countP_self ids]
    simp only [Nat.zero_add, ne_eq, issued, not_not]
    exact hburst

/-- Wrong counters stay wrong through the following calls. -/
theorem ProcessCounts.still_miscounted {c d : Cache} {mem : List MemoryAccess}
    (hp : ProcessCounts c d) (h : c.Miscounted mem) : d.Miscounted mem := by
  obtain ⟨s, hs, hne⟩ := h
  cases hp with
  | same active missQ counts _ =>
    obtain ⟨hi, hr, -⟩ := counts s
    refine ⟨s, active ▸ hs, ?_⟩
    rwa [hi, hr, owed, missQ]
  | opened slot subs new active missQ ids counts returned issued =>
    have hss : s ≠ slot := fun heq => new (heq ▸ hs)
    obtain ⟨hi, hr, -⟩ := counts s hss
    refine ⟨s, by simp [active, hs], ?_⟩
    rwa [owed_append missQ, hi, hr, countP_other ids hss, Nat.add_zero]

theorem cycle_accounted_iff {c : Cache} {mem : List MemoryAccess} (hs : c.SlotsWF)
    (h : c.Accounted mem) : c.cycle.Accounted mem ↔ ∀ d ∈ c.processPoints, ¬ d.BurstMiss := by
  have key := processRequests_iff (P := fun d => d.SlotsWF ∧ d.Accounted mem)
    (M := fun d => d.SlotsWF ∧ d.Miscounted mem) (B := BurstMiss) (c := c.continueIssues)
    (fun d hd hB => ⟨hd.1.processOneRequest, (processOneRequest_counts hd.1).accounted hd.2 hB⟩)
    (fun d hd hB => ⟨hd.1.processOneRequest, (processOneRequest_counts hd.1).miscounted hd.2 hB⟩)
    (fun d hd => ⟨hd.1.processOneRequest, (processOneRequest_counts hd.1).still_miscounted hd.2⟩)
    (fun d hd hP => hd.2.not_accounted hP.2) ⟨hs.continueIssues, h.continueIssues⟩
  rw [processPoints, ← key]
  exact ⟨fun hacc => ⟨hs.cycle, hacc⟩, fun hboth => hboth.2⟩

/-! ## Counting a response -/

theorem reissue_spec {c : Cache} (h : c.SlotsWF) {slot : Nat} (hs : slot ∈ c.activeSlots) :
    ∃ subs, (c.reissue slot).missQ = c.missQ ++ subs ∧ (∀ m ∈ subs, m.id = slot) ∧
      (c.pending slot).issuedBlocks + subs.length ≤ (c.pending slot).totalBlocks ∧
      (c.reissue slot).pending = Function.update c.pending slot
        { c.pending slot with
          issuedBlocks := (c.pending slot).issuedBlocks + subs.length } := by
  unfold reissue
  split
  · have hi := issueBlocks_spec c slot
    obtain ⟨subs, hq, hlen, hsubs⟩ := hi.subs
    refine ⟨subs, hq, fun m hm => (hsubs m hm).choose_spec.2.id, ?_, ?_⟩
    · rw [hlen]
      exact toIssue_le h hs
    · rw [hi.pending, hlen]
  · exact ⟨[], by simp, by simp, by simpa using (h.issued slot hs).1, by simp⟩

/-- What a counted response makes the bank ask for are blocks of the object in its slot. -/
theorem pushMemoryResponse_subs {c : Cache} (h : c.SlotsWF) {resp : MemoryAccess}
    (hs : resp.id ∈ c.activeSlots) :
    ∃ subs, (c.pushMemoryResponse resp).missQ = c.missQ ++ subs ∧
      ∀ m ∈ subs, ∃ k, k < (c.pending resp.id).totalBlocks ∧
        IsBlockOf resp.id (c.pending resp.id) k m := by
  rw [pushMemoryResponse_counted ((h.active resp.id).mpr hs) (h.lt hs)]
  generalize hd : (c.fill (blockBase resp.dramAddress) (c.pending resp.id).isWrite
    (c.pending resp.id).coreId).countReturn resp.id = d
  have hdw : d.SlotsWF := hd ▸ (h.fill _ _ _).countReturn (by simpa using hs)
  have hda : resp.id ∈ d.activeSlots := by simpa [← hd, countReturn] using hs
  have hdq : d.missQ = c.missQ := by simp [← hd, countReturn]
  have hdp : d.pending resp.id = { c.pending resp.id with
      returnedBlocks := (c.pending resp.id).returnedBlocks + 1 } := by
    simp [← hd, countReturn]
  simp only [poolRelease_frame, complete_frame]
  unfold reissue
  split
  · obtain ⟨subs, hq, -, hsubs⟩ := (issueBlocks_spec d resp.id).subs
    have hroom := toIssue_le hdw hda
    refine ⟨subs, by rw [hq, hdq], fun m hm => ?_⟩
    obtain ⟨k, hk, hblock⟩ := hsubs m hm
    rw [hdp] at hblock hk hroom
    exact ⟨k, hk.trans_le hroom, hblock.id, hblock.size, hblock.objectSize, hblock.address⟩
  · exact ⟨[], by rw [hdq, List.append_nil], fun m hm => absurd hm List.not_mem_nil⟩

/-- The object of a slot is the same in `c` and `d`, up to its position in the dense array. -/
def SameObject (c d : Cache) (s : Nat) : Prop :=
  ∃ i, d.pending s = { c.pending s with activeSlotsIdx := i }

theorem SameObject.counts {c d : Cache} {s : Nat} (h : SameObject c d s) : SameCounts c d s := by
  obtain ⟨i, hi⟩ := h
  simp [SameCounts, hi]

/-- What a counted response does to its slot `s`: further blocks may be issued, and the object is
either still unfinished, or its requests are answered and the slot is freed. -/
inductive ResponseCase (c d : Cache) (s : Nat) (subs : List MemoryAccess) : Prop
  | kept (active : d.activeSlots = c.activeSlots)
      (object : d.pending s = { c.pending s with
        returnedBlocks := (c.pending s).returnedBlocks + 1
        issuedBlocks := (c.pending s).issuedBlocks + subs.length })
      (outQ : d.outQ = c.outQ)
      (unfinished : (c.pending s).returnedBlocks + 1 < (c.pending s).totalBlocks)
  | released (active : ∀ x, x ∈ d.activeSlots ↔ x ∈ c.activeSlots ∧ x ≠ s)
      (outQ : d.outQ = c.outQ ++ (c.pending s).waitingReqs.map MemoryAccess.answered)
      (finished : (c.pending s).totalBlocks ≤ (c.pending s).returnedBlocks + 1)

theorem pushMemoryResponse_cases {c : Cache} (h : c.SlotsWF) {resp : MemoryAccess}
    (hs : resp.id ∈ c.activeSlots) :
    ∃ subs, (c.pushMemoryResponse resp).missQ = c.missQ ++ subs ∧ (∀ m ∈ subs, m.id = resp.id) ∧
      (c.pending resp.id).issuedBlocks + subs.length ≤ (c.pending resp.id).totalBlocks ∧
      (c.pushMemoryResponse resp).inQ = c.inQ ∧
      (∀ x, x ≠ resp.id → SameObject c (c.pushMemoryResponse resp) x) ∧
      ResponseCase c (c.pushMemoryResponse resp) resp.id subs := by
  rw [pushMemoryResponse_counted ((h.active resp.id).mpr hs) (h.lt hs)]
  generalize hd : (c.fill (blockBase resp.dramAddress) (c.pending resp.id).isWrite
    (c.pending resp.id).coreId).countReturn resp.id = d
  have hdq : d.missQ = c.missQ := by simp [← hd, countReturn]
  have hdi : d.inQ = c.inQ := by simp [← hd, countReturn]
  have hdo : d.outQ = c.outQ := by simp [← hd, countReturn]
  have hda : d.activeSlots = c.activeSlots := by simp [← hd, countReturn]
  have hdp : d.pending = Function.update c.pending resp.id
      { c.pending resp.id with returnedBlocks := (c.pending resp.id).returnedBlocks + 1 } := by
    simp [← hd, countReturn]
  have hdw : d.SlotsWF := hd ▸ (h.fill _ _ _).countReturn (by simpa using hs)
  have hds : resp.id ∈ d.activeSlots := hda ▸ hs
  obtain ⟨subs, hq, hids, hroom, hpend⟩ := reissue_spec hdw hds
  have hrw : (d.reissue resp.id).SlotsWF := hdw.reissue hds
  have hra : (d.reissue resp.id).activeSlots = c.activeSlots := by
    rw [reissue_activeSlots, hda]
  obtain ⟨-, -, hri, hro⟩ := reissue_frame d resp.id
  generalize d.reissue resp.id = r at *
  rw [hdp] at hpend hroom
  simp only [Function.update_self, Function.update_idem] at hpend hroom
  have hother : ∀ x, x ≠ resp.id → r.pending x = c.pending x := by
    intro x hx
    simp [hpend, hx]
  have hown : r.pending resp.id = { c.pending resp.id with
      returnedBlocks := (c.pending resp.id).returnedBlocks + 1
      issuedBlocks := (c.pending resp.id).issuedBlocks + subs.length } := by
    simp [hpend]
  have hout := hrw.answerWaiting resp.id
  have hso : resp.id ∈ (r.answerWaiting resp.id).activeSlots := by simpa [hra] using hs
  refine ⟨subs, ?_, hids, hroom, ?_, fun x hx => ?_, ?_⟩
  · simp only [poolRelease_frame, complete_frame]
    rw [hq, hdq]
  · simp only [poolRelease_frame, complete_frame]
    rw [hri, hdi]
  · rw [SameObject, ← hother x hx]
    unfold complete
    split
    · obtain ⟨i, hi⟩ := freePendingSlot_other hout hso hx
      exact ⟨i, by simp [hi]⟩
    · exact ⟨(r.pending x).activeSlotsIdx, by simp⟩
  · by_cases hdone : (r.pending resp.id).totalBlocks ≤ (r.pending resp.id).returnedBlocks
    · rw [complete, if_pos hdone]
      refine .released (fun x => ?_) ?_ (by simpa [hown] using hdone)
      · have hmem := @mem_freePendingSlot _ hout resp.id hso x
        simpa [hra] using hmem
      · simp [answerWaiting, hro, hdo, hown]
    · rw [complete, if_neg hdone]
      refine .kept (by simpa using hra) ?_ ?_ ?_
      · simp [hown]
      · simp [hro, hdo]
      · simpa [hown] using hdone

end Cache

namespace Bank

open Cache

/-- The books of a bank with its memory. -/
def Accounted (b : Bank) : Prop := b.l2.Accounted b.missMem

/-- Where the step releases an object, all its blocks had been issued and none is on its way. -/
def ReleaseSafe (b : Bank) (a : Act) : Prop :=
  ∀ b', b.step a = some b' → ∀ s ∈ b.l2.activeSlots, s ∉ b'.l2.activeSlots →
    (b.l2.pending s).issuedBlocks = (b.l2.pending s).totalBlocks ∧ b'.l2.owed b'.missMem s = 0

/-- The steps that keep the books right: no writeback completion arrives while slot 0 holds an
object with blocks, and no cycle sends an object down the large-object path. -/
def StepOk (b : Bank) : Act → Prop
  | .answerWb _ => ¬ ((b.l2.pending 0).active = true ∧ (b.l2.pending 0).totalBlocks ≠ 0)
  | .cycle => ∀ d ∈ b.l2.processPoints, ¬ d.BurstMiss
  | _ => True

/-- What holds of every bank with a memory. -/
structure Inv (b : Bank) : Prop where
  sets : b.l2.SetsWF
  slots : b.l2.SlotsWF
  unfinished : b.l2.Unfinished
  wbIds : ∀ m ∈ b.l2.wbQ ++ b.wbMem, m.id = 0

theorem inv_init : Inv {} where
  sets := setsWF_init
  slots := slotsWF_init
  unfinished s hs := by simp at hs
  wbIds m hm := by simp at hm

theorem unfinished_process {c : Cache} (hs : c.SlotsWF) (h : c.Unfinished) :
    c.processOneRequest.2.Unfinished := by
  cases processOneRequest_counts hs with
  | same active _ counts _ =>
    intro s hsa
    obtain ⟨-, hr, ht⟩ := counts s
    rw [hr, ht]
    exact h s (active ▸ hsa)
  | opened slot subs new active _ _ counts returned _ =>
    intro s hsa
    by_cases hss : s = slot
    · subst hss
      rw [returned]
      omega
    · rw [active, List.mem_append, List.mem_singleton] at hsa
      obtain ⟨-, hr, ht⟩ := counts s hss
      rw [hr, ht]
      exact h s (hsa.resolve_right hss)

theorem unfinished_continueIssue {c : Cache} (h : c.Unfinished) (slot : Nat) :
    (c.continueIssue slot).Unfinished := by
  unfold continueIssue
  split
  · exact h
  · split
    · have hi := issueBlocks_spec c slot
      intro s hs
      rw [hi.frame.2.1] at hs
      rw [hi.pending]
      by_cases hss : s = slot
      · subst hss
        simpa using h s hs
      · simpa [hss] using h s hs
    · exact h

theorem unfinished_step {c : Cache} (hs : c.SlotsWF) (h : c.Unfinished) (op : Op) :
    (c.step op).Unfinished := by
  cases op with
  | pushRequest req => exact h
  | popMissRequest => exact h
  | popWbRequest => exact h
  | popResponse => exact h
  | cycle =>
    have hcont : c.continueIssues.Unfinished :=
      continueIssues_induction continueIssue_activeSlots
        (fun d s _ hd => unfinished_continueIssue hd s) h
    have key : c.continueIssues.processRequests.SlotsWF ∧
        c.continueIssues.processRequests.Unfinished :=
      processRequests_induction (P := fun d => d.SlotsWF ∧ d.Unfinished)
        (fun d _ hd => ⟨hd.1.processOneRequest, unfinished_process hd.1 hd.2⟩)
        ⟨hs.continueIssues, hcont⟩
    exact key.2
  | pushMemoryResponse resp =>
    show (c.pushMemoryResponse resp).Unfinished
    cases ha : (c.pending resp.id).active with
    | false =>
      rw [pushMemoryResponse_ignored (.inl ha)]
      intro s
      simpa using h s
    | true =>
      obtain ⟨subs, -, -, -, -, hother, hcase⟩ :=
        pushMemoryResponse_cases hs ((hs.active resp.id).mp ha)
      intro s hsa
      cases hcase with
      | kept active object _ unfinished =>
        by_cases hss : s = resp.id
        · subst hss
          rw [object]
          exact .inl unfinished
        · obtain ⟨-, hr, ht⟩ := (hother s hss).counts
          rw [hr, ht]
          exact h s (active ▸ hsa)
      | released active _ _ =>
        obtain ⟨hsa, hss⟩ := (active s).mp hsa
        obtain ⟨-, hr, ht⟩ := (hother s hss).counts
        rw [hr, ht]
        exact h s hsa

/-- What a step queues for writing back carries the id 0. -/
theorem wbQ_step {c : Cache} (hl : c.SetsWF) (hs : c.SlotsWF) (op : Op) :
    ∀ m ∈ (c.step op).wbQ, m ∈ c.wbQ ∨ m.id = 0 := by
  have hkeep := step_keepsDirty hl hs op
  cases op with
  | pushRequest req => exact fun m hm => .inl hm
  | cycle =>
    intro m hm
    rw [hkeep.2] at hm
    exact .inl hm
  | popMissRequest => exact fun m hm => .inl hm
  | popWbRequest => exact fun m hm => .inl (List.mem_of_mem_tail hm)
  | popResponse => exact fun m hm => .inl hm
  | pushMemoryResponse resp =>
    intro m hm
    have hmr : m ∈ (c.pushMemoryResponse resp).wbQ := hm
    cases hkeep with
    | kept _ wbQ =>
      rw [wbQ] at hmr
      exact .inl hmr
    | evicted _ _ _ _ w wbQ writeback =>
      rw [wbQ, List.mem_append, List.mem_singleton] at hmr
      rcases hmr with hmr | rfl
      · exact .inl hmr
      · exact .inr writeback.id

theorem Inv.step {b b' : Bank} {a : Act} (h : Inv b) (hs : b.step a = some b') : Inv b' := by
  have hids : ∀ op, ∀ m ∈ (b.l2.step op).wbQ, m.id = 0 := by
    intro op m hm
    rcases wbQ_step h.sets h.slots op m hm with hm | hm
    · exact h.wbIds m (List.mem_append_left _ hm)
    · exact hm
  have hmem : ∀ m ∈ b.wbMem, m.id = 0 := fun m hm => h.wbIds m (List.mem_append_right _ hm)
  have key : ∀ op wb, b'.l2 = b.l2.step op → b'.wbMem = wb → (∀ m ∈ wb, m.id = 0) → Inv b' := by
    intro op wb hop hwb hall
    refine ⟨?_, ?_, ?_, ?_⟩
    · rw [hop]
      exact step_setsWF h.sets h.slots op
    · rw [hop]
      exact h.slots.step op
    · rw [hop]
      exact unfinished_step h.slots h.unfinished op
    · rw [hop, hwb]
      intro m hm
      rcases List.mem_append.mp hm with hm | hm
      · exact hids op m hm
      · exact hall m hm
  cases a with
  | pushRequest req =>
    obtain rfl := Option.some.inj hs
    exact key (.pushRequest req) _ rfl rfl hmem
  | cycle =>
    obtain rfl := Option.some.inj hs
    exact key .cycle _ rfl rfl hmem
  | popMissRequest =>
    obtain ⟨m, -, rfl⟩ := Option.map_eq_some_iff.mp hs
    exact key .popMissRequest _ rfl rfl hmem
  | popWbRequest =>
    obtain ⟨w, hw, rfl⟩ := Option.map_eq_some_iff.mp hs
    refine key .popWbRequest _ rfl rfl fun m hm => ?_
    rcases List.mem_append.mp hm with hm | hm
    · exact hmem m hm
    · obtain rfl := List.mem_singleton.mp hm
      exact h.wbIds m (List.mem_append_left _ (List.mem_of_mem_head? hw))
  | answerMiss i =>
    obtain ⟨m, -, rfl⟩ := Option.map_eq_some_iff.mp hs
    exact key (.pushMemoryResponse m.answered) _ rfl rfl hmem
  | answerWb i =>
    obtain ⟨w, -, rfl⟩ := Option.map_eq_some_iff.mp hs
    exact key (.pushMemoryResponse w.answered) _ rfl rfl
      fun m hm => hmem m (List.mem_of_mem_eraseIdx hm)
  | popResponse =>
    obtain ⟨m, -, rfl⟩ := Option.map_eq_some_iff.mp hs
    exact key .popResponse _ rfl rfl hmem

theorem Run.inv {t : List (Bank × Act)} {b : Bank} (run : Run t b) : Inv b :=
  Machine.Run.invariant run inv_init fun _ _ _ h hs => h.step hs

/-! ## Each step -/

theorem releaseSafe_of {b b' : Bank} {a : Act} (hs : b.step a = some b')
    (h : ∀ s ∈ b.l2.activeSlots, s ∉ b'.l2.activeSlots →
      (b.l2.pending s).issuedBlocks = (b.l2.pending s).totalBlocks ∧
        b'.l2.owed b'.missMem s = 0) : ReleaseSafe b a := by
  intro u hu
  rw [hs] at hu
  obtain rfl := Option.some.inj hu
  exact h

/-- A step that only moves sub-requests about. -/
theorem accounted_of_perm {b b' : Bank} {a : Act} (h : Accounted b) (hs : b.step a = some b')
    (hact : b'.l2.activeSlots = b.l2.activeSlots) (hpend : b'.l2.pending = b.l2.pending)
    (hperm : (b'.l2.missQ ++ b'.missMem).Perm (b.l2.missQ ++ b.missMem)) :
    Accounted b' ∧ ReleaseSafe b a := by
  refine ⟨⟨fun s hsa => ?_, fun m hm => ?_⟩, releaseSafe_of hs fun s hsa hn => ?_⟩
  · rw [hpend, owed, hperm.countP_eq]
    exact h.counts s (hact ▸ hsa)
  · rw [hact]
    exact h.ids m (hperm.mem_iff.mp hm)
  · rw [hact] at hn
    exact absurd hsa hn

theorem cycle_active {c : Cache} (h : c.SlotsWF) {s : Nat} (hs : s ∈ c.activeSlots) :
    s ∈ c.cycle.activeSlots := by
  have hcont : s ∈ c.continueIssues.activeSlots :=
    continueIssues_induction (P := fun d => s ∈ d.activeSlots) continueIssue_activeSlots
      (fun d x _ hd => by rwa [continueIssue_activeSlots]) hs
  have key : c.continueIssues.processRequests.SlotsWF ∧
      s ∈ c.continueIssues.processRequests.activeSlots := by
    refine processRequests_induction (P := fun d => d.SlotsWF ∧ s ∈ d.activeSlots)
      (fun d _ hd => ⟨hd.1.processOneRequest, ?_⟩) ⟨h.continueIssues, hcont⟩
    cases processOneRequest_counts hd.1 with
    | same active _ _ _ => rw [active]; exact hd.2
    | opened _ _ _ active _ _ _ _ _ => rw [active]; exact List.mem_append_left _ hd.2
  exact key.2

/-- The answer to a sub-request keeps the books right. -/
theorem answerMiss_accounted {b b' : Bank} {i : Nat} (hI : Inv b) (h : Accounted b)
    (hs : b.step (.answerMiss i) = some b') : Accounted b' ∧ ReleaseSafe b (.answerMiss i) := by
  obtain ⟨m, hm, heq⟩ := Option.map_eq_some_iff.mp hs
  obtain ⟨hi, hmi⟩ := List.getElem?_eq_some_iff.mp hm
  have hmem : m ∈ b.missMem := List.mem_of_getElem? hm
  have hact : m.answered.id ∈ b.l2.activeSlots := h.ids m (List.mem_append_right _ hmem)
  have hperm : (m :: b.missMem.eraseIdx i).Perm b.missMem := by
    rw [← hmi]
    exact List.getElem_cons_eraseIdx_perm hi
  obtain ⟨subs, hq, hids, hroom, -, hother, hcase⟩ := pushMemoryResponse_cases hI.slots hact
  simp only [MemoryAccess.answered_id] at hact hids hroom hother hcase
  -- the sub-requests on their way after the step
  have howed : ∀ s, b'.l2.owed b'.missMem s + (if m.id = s then 1 else 0) =
      b.l2.owed b.missMem s + subs.countP fun x => x.id == s := by
    intro s
    have hc := hperm.countP_eq (fun x => x.id == s)
    rw [List.countP_cons] at hc
    subst heq
    simp only [owed, hq, List.countP_append]
    simp only [beq_iff_eq] at hc
    omega
  have hids' : ∀ x ∈ b'.l2.missQ ++ b'.missMem, x.id ∈ b.l2.activeSlots := by
    intro x hx
    subst heq
    rw [hq, List.append_assoc, List.mem_append, List.mem_append] at hx
    rcases hx with hx | hx | hx
    · exact h.ids x (List.mem_append_left _ hx)
    · rw [hids x hx]
      exact hact
    · exact h.ids x (List.mem_append_right _ (List.mem_of_mem_eraseIdx hx))
  have hl2 : b'.l2 = b.l2.pushMemoryResponse m.answered := by rw [← heq]
  rw [← hl2] at hother hcase
  have hslot := h.counts m.id hact
  have hown := howed m.id
  rw [if_pos rfl, countP_self hids] at hown
  have hrest : ∀ s ∈ b.l2.activeSlots, s ≠ m.id →
      (b'.l2.pending s).issuedBlocks =
        (b'.l2.pending s).returnedBlocks + b'.l2.owed b'.missMem s := by
    intro s hsa hsm
    obtain ⟨hi', hr', -⟩ := (hother s hsm).counts
    have ho := howed s
    rw [if_neg (Ne.symm hsm), countP_other hids hsm] at ho
    have := h.counts s hsa
    rw [hi', hr']
    omega
  cases hcase with
  | kept active object _ unfinished =>
    refine ⟨⟨fun s hsa => ?_, fun x hx => ?_⟩, releaseSafe_of hs fun s hsa hn => ?_⟩
    · rw [active] at hsa
      by_cases hsm : s = m.id
      · subst hsm
        rw [object]
        simp only
        omega
      · exact hrest s hsa hsm
    · rw [active]
      exact hids' x hx
    · rw [active] at hn
      exact absurd hsa hn
  | released active _ finished =>
    -- everything issued and returned, so nothing of this slot is left
    have hone : 0 < b.l2.owed b.missMem m.id :=
      List.countP_pos_iff.mpr ⟨m, List.mem_append_right _ hmem, by simp⟩
    have hzero : b'.l2.owed b'.missMem m.id = 0 ∧
        (b.l2.pending m.id).issuedBlocks = (b.l2.pending m.id).totalBlocks := by
      omega
    refine ⟨⟨fun s hsa => ?_, fun x hx => ?_⟩, releaseSafe_of hs fun s hsa hn => ?_⟩
    · obtain ⟨hsa, hsm⟩ := (active s).mp hsa
      exact hrest s hsa hsm
    · refine (active x.id).mpr ⟨hids' x hx, fun hxm => ?_⟩
      have hpos : 0 < b'.l2.owed b'.missMem m.id :=
        List.countP_pos_iff.mpr ⟨x, hx, by simp [hxm]⟩
      omega
    · have hsm : s = m.id := by
        by_contra hne
        exact hn ((active s).mpr ⟨hsa, hne⟩)
      subst hsm
      exact ⟨hzero.2, hzero.1⟩

/-- The completion of a writeback keeps the books right exactly when slot 0 is inactive or its
object has no blocks. -/
theorem answerWb_accounted_iff {b b' : Bank} {i : Nat} (hI : Inv b) (h : Accounted b)
    (hs : b.step (.answerWb i) = some b') :
    Accounted b' ∧ ReleaseSafe b (.answerWb i) ↔ StepOk b (.answerWb i) := by
  obtain ⟨w, hw, heq⟩ := Option.map_eq_some_iff.mp hs
  have hid : w.answered.id = 0 :=
    hI.wbIds w (List.mem_append_right _ (List.mem_of_getElem? hw))
  have hl2 : b'.l2 = b.l2.pushMemoryResponse w.answered := by rw [← heq]
  have hmem : b'.missMem = b.missMem := by rw [← heq]
  by_cases hact : 0 ∈ b.l2.activeSlots
  · have hactive : (b.l2.pending 0).active = true := (hI.slots.active 0).mpr hact
    have hslot : w.answered.id ∈ b.l2.activeSlots := hid ▸ hact
    obtain ⟨subs, hq, hids, hroom, -, hother, hcase⟩ := pushMemoryResponse_cases hI.slots hslot
    rw [hid] at hids hroom hother hcase
    rw [← hl2] at hq hother hcase
    have howed : ∀ s, b'.l2.owed b'.missMem s =
        b.l2.owed b.missMem s + subs.countP fun x => x.id == s := by
      intro s
      rw [hmem]
      exact owed_append hq s
    have hown := howed 0
    rw [countP_self hids] at hown
    have hslot := h.counts 0 hact
    simp only [StepOk, hactive, true_and, not_not]
    cases hcase with
    | kept active object _ unfinished =>
      -- the count of returned blocks is one too high from now on
      refine ⟨fun hboth => ?_, fun hzero => ?_⟩
      · have hcount := hboth.1.counts 0 (active ▸ hact)
        rw [object] at hcount
        simp only at hcount
        omega
      · omega
    | released active _ finished =>
      have hgone : 0 ∉ b'.l2.activeSlots := fun hc => ((active 0).mp hc).2 rfl
      refine ⟨fun hboth => ?_, fun hzero => ⟨⟨fun s hsa => ?_, fun x hx => ?_⟩,
        releaseSafe_of hs fun s hsa hn => ?_⟩⟩
      · have := hboth.2 b' hs 0 hact hgone
        rcases hI.unfinished 0 hact with hun | hun <;> omega
      · obtain ⟨hsa, hs0⟩ := (active s).mp hsa
        obtain ⟨hi', hr', -⟩ := (hother s hs0).counts
        rw [howed, countP_other hids hs0, hi', hr']
        exact h.counts s hsa
      · have hlen : subs = [] := List.length_eq_zero_iff.mp (by omega)
        rw [hq, hmem, hlen, List.append_nil] at hx
        refine (active x.id).mpr ⟨h.ids x hx, fun hx0 => ?_⟩
        have hpos : 0 < b.l2.owed b.missMem 0 := List.countP_pos_iff.mpr ⟨x, hx, by simp [hx0]⟩
        omega
      · have hs0 : s = 0 := by
          by_contra hne
          exact hn ((active s).mpr ⟨hsa, hne⟩)
        subst hs0
        omega
  · have hactive : (b.l2.pending 0).active = false := by
      rw [← Bool.not_eq_true, hI.slots.active 0]
      exact hact
    have hign : b.l2.pushMemoryResponse w.answered = b.l2.poolRelease w.answered.ptr :=
      pushMemoryResponse_ignored (.inl (by rw [hid]; exact hactive))
    have hok : StepOk b (.answerWb i) := by simp [StepOk, hactive]
    refine ⟨fun _ => hok, fun _ => ?_⟩
    exact accounted_of_perm h hs (by rw [hl2, hign]; simp) (by rw [hl2, hign]; simp)
      (by rw [hl2, hign, hmem]; simp)

/-- A step from right books keeps them right, and releases no object too early, exactly when it
meets `StepOk`. -/
theorem step_accounted_iff {b b' : Bank} {a : Act} (hI : Inv b) (h : Accounted b)
    (hs : b.step a = some b') : Accounted b' ∧ ReleaseSafe b a ↔ StepOk b a := by
  cases a with
  | pushRequest req =>
    obtain rfl := Option.some.inj hs
    exact iff_of_true (accounted_of_perm h hs rfl rfl (.refl _)) trivial
  | cycle =>
    obtain rfl := Option.some.inj hs
    have hiff := cycle_accounted_iff hI.slots h
    refine ⟨fun hboth => hiff.mp hboth.1, fun hok => ⟨hiff.mpr hok, ?_⟩⟩
    exact releaseSafe_of hs fun s hsa hn => absurd (cycle_active hI.slots hsa) hn
  | popMissRequest =>
    refine iff_of_true ?_ trivial
    obtain ⟨m, hm, rfl⟩ := Option.map_eq_some_iff.mp hs
    refine accounted_of_perm h hs rfl rfl ?_
    obtain ⟨rest, hq⟩ : ∃ rest, b.l2.missQ = m :: rest := by
      cases hq : b.l2.missQ with
      | nil => simp [hq] at hm
      | cons x rest =>
        rw [hq] at hm
        exact ⟨rest, by rw [Option.some.inj hm]⟩
    simp only [popMissRequest, hq, List.tail_cons]
    rw [← List.append_assoc]
    exact (List.perm_append_singleton m _)
  | popWbRequest =>
    obtain ⟨w, -, rfl⟩ := Option.map_eq_some_iff.mp hs
    exact iff_of_true (accounted_of_perm h hs rfl rfl (.refl _)) trivial
  | answerMiss i => exact iff_of_true (answerMiss_accounted hI h hs) trivial
  | answerWb i => exact answerWb_accounted_iff hI h hs
  | popResponse =>
    obtain ⟨m, -, rfl⟩ := Option.map_eq_some_iff.mp hs
    exact iff_of_true (accounted_of_perm h hs rfl rfl (.refl _)) trivial

theorem accounted_init : Accounted {} where
  counts s hs := by simp at hs
  ids m hm := by simp at hm

/-- The books of a bank are right in every state of a run, and no object is released before its
blocks are back, exactly when every step of the run meets `StepOk`. -/
theorem accounted_iff {t : List (Bank × Act)} {b : Bank} (run : Run t b) :
    Machine.Always Accounted t b ∧ Machine.EachStep ReleaseSafe t ↔ Machine.EachStep StepOk t :=
  Machine.Run.always_iff_eachStep run inv_init (fun _ _ _ h hs => h.step hs) accounted_init
    fun _ _ _ hI h hs => step_accounted_iff hI h hs

/-! ## A completion counted for the wrong object -/

/-- A one-byte write to block `k` of set 0. -/
def writeTo (k : Nat) : MemoryAccess :=
  { ptr := .heap k, id := k + 1, dramAddress := BitVec.ofNat 64 (k * 2 ^ 22), size := 1,
    objectSize := 1, write := true, request := true, coreId := 0, bufferId := 0 }

theorem writeTo_toNat {k : Nat} (hk : k < 2 ^ 42) : (writeTo k).dramAddress.toNat = k * 2 ^ 22 := by
  simp only [writeTo, BitVec.toNat_ofNat]
  omega

theorem writeTo_sameBlock {j k : Nat} (hj : j < 2 ^ 42) (hk : k < 2 ^ 42)
    (h : SameBlock (writeTo j).dramAddress (writeTo k).dramAddress) : j = k := by
  unfold SameBlock at h
  rw [writeTo_toNat hj, writeTo_toNat hk] at h
  omega

/-- The writes to the first `n` blocks of set 0, each fetched before the next. -/
def writes (n : Nat) : List Act := (List.range n).flatMap fun k => fetch (writeTo k)

theorem writes_idle {n : Nat} (hn : n < 2 ^ 42) :
    ∃ b, (writes n).foldlM step {} = some b ∧ b.Idle ∧ b.wbMem = [] ∧
      (∀ a, b.l2.Resident a → ∃ k, k < n ∧ SameBlock a (writeTo k).dramAddress) ∧
      (b.l2.wbQ = [] → ∀ k, k < n → b.l2.Dirty (writeTo k).dramAddress) := by
  induction n with
  | zero =>
    exact ⟨{}, rfl, idle_init, rfl, fun a ha => absurd ha (init_not_resident a),
      fun _ k hk => absurd hk (Nat.not_lt_zero k)⟩
  | succ n ih =>
    obtain ⟨b, hrun, hidle, hwb, hres, hdirty⟩ := ih (by omega)
    have hmiss : ¬ b.l2.Resident (writeTo n).dramAddress := by
      intro hr
      obtain ⟨k, hk, hsame⟩ := hres _ hr
      have := writeTo_sameBlock (by omega) (by omega) hsame
      omega
    obtain ⟨b', hfetch, hidle', hwb', hfill⟩ := fetch_idle hidle (show nBlocks 1 = 1 by decide)
      (show 1 < LARGE_OBJ_THRESHOLD by decide) hmiss
    have hbase : SameBlock (writeTo n).dramAddress (blockBase (writeTo n).dramAddress) :=
      (sameBlock_blockBase _).symm
    refine ⟨b', ?_, hidle', hwb'.trans hwb, fun a ha => ?_, fun hq => ?_⟩
    · rw [writes, List.range_succ, List.flatMap_append, List.foldlM_append]
      change ((writes n).foldlM step {}).bind _ = _
      rw [hrun]
      simpa using hfetch
    · by_cases hsame : SameBlock a (blockBase (writeTo n).dramAddress)
      · exact ⟨n, by omega, hsame.trans hbase.symm⟩
      · have hold : b.l2.Resident a := by
          obtain ⟨hlines, -⟩ | ⟨v, e, -, -, hlines, -⟩ := hfill.rest
          · rwa [Resident, hlines a hsame] at ha
          · rw [Resident, hlines a hsame] at ha
            split at ha
            · cases ha
            · exact ha
        obtain ⟨k, hk, hak⟩ := hres a hold
        exact ⟨k, by omega, hak⟩
    · have hnew : b'.l2.Dirty (writeTo n).dramAddress := by
        obtain ⟨e, he, hed⟩ := hfill.filled
        exact ⟨e, (line_congr _ hbase).trans he, hed.mpr (.inl rfl)⟩
      cases hfill.keepsDirty with
      | kept dirty wbQ =>
        intro k hk
        by_cases hkn : k = n
        · exact hkn ▸ hnew
        · exact dirty _ (hdirty (wbQ ▸ hq) k (by omega))
      | evicted _ _ _ _ m wbQ _ =>
        rw [wbQ] at hq
        simp at hq

/-- A set has no room for seventeen blocks. -/
theorem exists_evicted {c : Cache} (h : c.SetsWF) {n : Nat} (hn : NUM_WAYS < n) (hn' : n < 2 ^ 42) :
    ¬ ∀ k, k < n → c.Resident (writeTo k).dramAddress := by
  intro hall
  have hset : ∀ k, k < n → setIndex (writeTo k).dramAddress = 0 := by
    intro k hk
    rw [setIndex_eq, writeTo_toNat (by omega)]
    omega
  have hway : ∀ k : Fin n, ∃ w : Fin NUM_WAYS,
      ((c.sets 0).ways w).tag.setWidth 64 = tagBits (writeTo k).dramAddress := by
    intro k
    obtain ⟨e, he⟩ := Option.isSome_iff_exists.mp (hall k k.isLt)
    rw [line, hset k k.isLt] at he
    obtain ⟨w, hw, hwe, -, htag⟩ := (CacheSet.line_eq_some_iff (h 0)).mp he
    exact ⟨⟨w, hw⟩, by rw [hwe]; exact htag⟩
  choose f hf using hway
  obtain ⟨j, k, hjk, heq⟩ := Fintype.exists_ne_map_eq_of_card_lt f (by simpa using hn)
  have htags : tagBits (writeTo j).dramAddress = tagBits (writeTo k).dramAddress := by
    rw [← hf j, ← hf k, heq]
  refine hjk (Fin.ext (writeTo_sameBlock (by omega) (by omega) (sameBlock_iff.mpr ⟨?_, htags⟩)))
  rw [hset j j.isLt, hset k k.isLt]

/-- A read of a block of set 1. -/
def readOther : MemoryAccess :=
  { ptr := .heap 17, id := 18, dramAddress := 128, size := 1, objectSize := 1, write := false,
    request := true, coreId := 0, bufferId := 0 }

/-- Seventeen writes to one set evict a dirty line. Its writeback is sent to memory, a read takes
slot 0, and the completion of the writeback arrives before the block of the read. -/
def evictingRun : List Act := writes 17 ++ [.popWbRequest, .pushRequest readOther, .cycle]

theorem evictingRun_reaches : ∃ b b', evictingRun.foldlM step {} = some b ∧
    b.step (.answerWb 0) = some b' ∧ ¬ StepOk b (.answerWb 0) := by
  obtain ⟨b, hrun, hidle, hwb, hres, hdirty⟩ := writes_idle (n := 17) (by decide)
  have hne : b.l2.wbQ ≠ [] := fun hq =>
    exists_evicted hidle.sets (n := 17) (by decide) (by decide) fun k hk => (hdirty hq k hk).resident
  obtain ⟨w, rest, hq⟩ := List.exists_cons_of_ne_nil hne
  have hmiss : ¬ b.l2.popWbRequest.Resident readOther.dramAddress := by
    intro hr
    obtain ⟨k, hk, hsame⟩ := hres _ hr
    unfold SameBlock at hsame
    rw [writeTo_toNat (by omega), show readOther.dramAddress.toNat = 128 from rfl] at hsame
    omega
  have hidle' : b.l2.popWbRequest.Idle := ⟨hidle.l2.inQ, hidle.l2.missQ, hidle.l2.activeSlots,
    hidle.l2.freeSlots⟩
  have hslots : b.l2.popWbRequest.SlotsWF := hidle.slots.step .popWbRequest
  obtain ⟨subs, hf⟩ := cycle_fetch hslots hidle' (by decide) hmiss
  have hslots' : (b.l2.popWbRequest.pushRequest readOther).cycle.SlotsWF :=
    (hslots.step (.pushRequest readOther)).step .cycle
  have hact := (hslots'.active 0).mpr (by simp [hf.active])
  refine ⟨{ b with
    l2 := (b.l2.popWbRequest.pushRequest readOther).cycle, wbMem := [w],
    pushed := b.pushed ++ [readOther] }, _, ?_, rfl, ?_⟩
  · rw [evictingRun, List.foldlM_append]
    change ((writes 17).foldlM step {}).bind _ = _
    rw [hrun]
    simp [step, hq, hwb]
  · have hone : nBlocks readOther.objectSize ≠ 0 := by decide
    simp [StepOk, hact, hf.object.1, hone]

/-- The completion of the writeback is counted for the read in slot 0. -/
theorem evictingRun_not_accounted : ¬ ∀ t b, Run t b →
    Machine.Always Accounted t b ∧ Machine.EachStep ReleaseSafe t := by
  intro hall
  obtain ⟨b, b', hrun, hstep, hbad⟩ := evictingRun_reaches
  obtain ⟨t, -, run⟩ := Machine.Run.of_foldlM hrun
  have hboth := hall _ _ (run.snoc hstep)
  obtain ⟨ht, hacc'⟩ := Machine.Always.snoc_iff.mp hboth.1
  obtain ⟨-, hsafe⟩ := Machine.EachStep.snoc_iff.mp hboth.2
  exact hbad ((step_accounted_iff (Run.inv run) ht.2 hstep).mp ⟨hacc', hsafe⟩)

/-- The books of a bank that fetched one block. -/
theorem accounted_iff_write : ∃ t b, Run t b ∧ b.Idle ∧
    (Machine.Always Accounted t b ∧ Machine.EachStep ReleaseSafe t ↔
      Machine.EachStep StepOk t) := by
  obtain ⟨b, hrun, hidle, -⟩ := writes_idle (n := 1) (by decide)
  obtain ⟨t, -, run⟩ := Machine.Run.of_foldlM hrun
  exact ⟨t, b, run, hidle, accounted_iff run⟩

end Bank

end OnnxSim
