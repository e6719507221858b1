import OnnxSim.Cache.Counts

/-!
# Room for new objects

A cycle takes new objects only while fewer than `MAX_PENDING_OBJS - 16` are pending, and takes at most
sixteen; otherwise it serves only requests that need no slot. So one slot stays free in every state of
a run, and `alloc_pending_slot` finds one whenever a cycle calls it.
-/

namespace OnnxSim

namespace Cache

variable {c : Cache}

/-- A slot is active or free, so the two lists have all slots between them. -/
theorem SlotsWF.length_add (h : c.SlotsWF) :
    c.activeSlots.length + c.freeSlots.length = MAX_PENDING_OBJS := by
  have hnodup : (c.activeSlots ++ c.freeSlots).Nodup :=
    h.nodup.append h.freeNodup fun s hs hf => h.disjoint s hs hf
  have hperm : (c.activeSlots ++ c.freeSlots).Perm (List.range MAX_PENDING_OBJS) := by
    refine (List.perm_ext_iff_of_nodup hnodup List.nodup_range).mpr fun s => ?_
    rw [List.mem_append, List.mem_range, h.cover s]
  rw [← List.length_append, hperm.length_eq, List.length_range]

theorem SlotsWF.freeSlots_ne_nil (h : c.SlotsWF) (hroom : c.activeSlots.length < MAX_PENDING_OBJS) :
    c.freeSlots ≠ [] := by
  intro hnil
  have hlen := h.length_add
  rw [hnil, List.length_nil] at hlen
  omega

/-- With room for an object, `alloc_pending_slot` returns a slot. -/
theorem SlotsWF.allocPendingSlot (h : c.SlotsWF)
    (hroom : c.activeSlots.length < MAX_PENDING_OBJS) :
    c.allocPendingSlot.1 < MAX_PENDING_OBJS := by
  obtain ⟨slot, rest, hfree⟩ := List.exists_cons_of_ne_nil (h.freeSlots_ne_nil hroom)
  rw [Cache.allocPendingSlot, hfree]
  exact (h.cover slot).mpr (.inr (by simp [hfree]))

/-! ## One call -/

theorem processOneRequest_length (h : c.SlotsWF) :
    c.processOneRequest.2.activeSlots.length ≤ c.activeSlots.length + 1 := by
  cases processOneRequest_counts h with
  | same active => rw [active]; exact Nat.le_succ _
  | opened slot subs new active =>
    rw [active, List.length_append]
    exact le_rfl

/-- A request that is served takes no slot. -/
theorem processOneRequest_served (h : c.SlotsWF) (hserved : c.headServed = true) :
    c.processOneRequest.2.activeSlots = c.activeSlots := by
  cases hq : c.inQ with
  | nil => rw [processOneRequest_nil hq]
  | cons req rest =>
    have hneeds : c.checkHit req.dramAddress = true ∨ c.findPendingSlot req.id < MAX_PENDING_OBJS := by
      simpa [headServed, hq] using hserved
    cases processOneRequest_cases h hq with
    | hit _ eq => rw [eq]; exact (answerHit_frame _ req).2.1
    | coalesced _ slot _ _ eq => rw [eq]; rfl
    | full _ _ _ eq => rw [eq]
    | burst miss find | blocks miss find =>
      rcases hneeds with hhit | hfound
      · rw [miss] at hhit
        cases hhit
      · exact absurd hfound find

/-! ## The calls of a cycle -/

theorem pointsMany_length {n : Nat} (h : c.SlotsWF) (hroom : c.activeSlots.length + n < MAX_PENDING_OBJS) :
    (∀ d ∈ pointsMany n c, d.SlotsWF ∧ d.activeSlots.length + 1 < MAX_PENDING_OBJS) ∧
      (processMany n c).activeSlots.length ≤ c.activeSlots.length + n := by
  induction n generalizing c with
  | zero => exact ⟨by simp [pointsMany], le_rfl⟩
  | succ n ih =>
    have hlen := processOneRequest_length h
    by_cases hmore : c.processOneRequest.1 = true
    · obtain ⟨hpoints, hafter⟩ := ih h.processOneRequest (by omega)
      have heq : processMany (n + 1) c = processMany n c.processOneRequest.2 := by
        simp [processMany, hmore]
      refine ⟨fun d hd => ?_, by rw [heq]; omega⟩
      rw [pointsMany, if_pos hmore] at hd
      rcases List.mem_cons.mp hd with rfl | hd
      · exact ⟨h, by omega⟩
      · exact hpoints d hd
    · have heq : processMany (n + 1) c = c.processOneRequest.2 := by
        simp [processMany, hmore]
      refine ⟨fun d hd => ?_, by rw [heq]; omega⟩
      rw [pointsMany, if_neg hmore, List.mem_singleton] at hd
      exact hd ▸ ⟨h, by omega⟩

theorem pointsServed_length {n : Nat} (h : c.SlotsWF) :
    (∀ d ∈ pointsServed n c, d.SlotsWF ∧ d.activeSlots = c.activeSlots) ∧
      (processServed n c).activeSlots = c.activeSlots := by
  induction n generalizing c with
  | zero => exact ⟨by simp [pointsServed], rfl⟩
  | succ n ih =>
    by_cases hserved : c.headServed = true
    · have hsame := processOneRequest_served h hserved
      obtain ⟨hpoints, hafter⟩ := ih h.processOneRequest
      refine ⟨fun d hd => ?_, ?_⟩
      · rw [pointsServed, if_pos hserved] at hd
        rcases List.mem_cons.mp hd with rfl | hd
        · exact ⟨h, rfl⟩
        · exact ⟨(hpoints d hd).1, (hpoints d hd).2.trans hsame⟩
      · rw [processServed, if_pos hserved, hafter, hsame]
    · refine ⟨by simp [pointsServed, hserved], ?_⟩
      rw [processServed, if_neg hserved]

/-- Some slot is free. -/
def Room (c : Cache) : Prop := c.activeSlots.length ≤ MAX_PENDING_OBJS - 1

theorem continueIssues_activeSlots (c : Cache) : c.continueIssues.activeSlots = c.activeSlots :=
  continueIssues_induction (P := fun d => d.activeSlots = c.activeSlots) continueIssue_activeSlots
    (fun d s _ hd => (continueIssue_activeSlots d s).trans hd) rfl

/-- A cycle leaves a slot free and finds one at each of its calls. -/
theorem Room.cycle (hroom : c.Room) (h : c.SlotsWF) :
    c.cycle.Room ∧ ∀ d ∈ c.processPoints, d.SlotsWF ∧ d.Room := by
  have hactive := continueIssues_activeSlots c
  have hcont := h.continueIssues
  have hcount := hcont.count
  unfold Room at hroom
  unfold Cache.cycle processRequests processPoints
  dsimp only
  split
  · -- the gate leaves room for sixteen objects
    rename_i hgate
    have hfew : c.continueIssues.activeSlots.length + MAX_IN_PER_CYCLE < MAX_PENDING_OBJS := by
      rw [← hcount]
      unfold MAX_IN_PER_CYCLE MAX_PENDING_OBJS at *
      omega
    obtain ⟨hpoints, hafter⟩ := pointsMany_length hcont hfew
    refine ⟨?_, fun d hd => ⟨(hpoints d hd).1, ?_⟩⟩
    · unfold Room
      omega
    · have := (hpoints d hd).2
      unfold Room
      omega
  · obtain ⟨hpoints, hafter⟩ := pointsServed_length (n := MAX_IN_PER_CYCLE) hcont
    refine ⟨?_, fun d hd => ⟨(hpoints d hd).1, ?_⟩⟩
    · rw [Room, hafter, hactive]
      exact hroom
    · rw [Room, (hpoints d hd).2, hactive]
      exact hroom

theorem Room.pushMemoryResponse (hroom : c.Room) (h : c.SlotsWF) (resp : MemoryAccess) :
    (c.pushMemoryResponse resp).Room := by
  have hwf := h.pushMemoryResponse resp
  cases ha : (c.pending resp.id).active with
  | false =>
    rw [pushMemoryResponse_ignored (.inl ha), Room, (poolRelease_frame c resp.ptr).2.2.1]
    exact hroom
  | true =>
    have hs := (h.active resp.id).mp ha
    obtain ⟨subs, -, -, -, -, -, hcase⟩ := pushMemoryResponse_cases h hs
    have hsubset : ∀ s ∈ (c.pushMemoryResponse resp).activeSlots, s ∈ c.activeSlots := by
      cases hcase with
      | kept active => exact fun s hs => active ▸ hs
      | released active => exact fun s hs => ((active s).mp hs).1
    exact (hwf.nodup.subperm hsubset).length_le.trans hroom

theorem Room.step (hroom : c.Room) (h : c.SlotsWF) (op : Op) : (c.step op).Room := by
  cases op with
  | pushRequest req => exact hroom
  | cycle => exact (hroom.cycle h).1
  | popMissRequest => exact hroom
  | popWbRequest => exact hroom
  | pushMemoryResponse resp => exact hroom.pushMemoryResponse h resp
  | popResponse => exact hroom

theorem Run.room {t : List (Cache × Op)} {c : Cache} (run : Run t c) : c.Room := by
  have key : c.SlotsWF ∧ c.Room := run.invariant (P := fun d => d.SlotsWF ∧ d.Room)
    ⟨slotsWF_init, Nat.zero_le _⟩ fun _ op _ hd hs => hs ▸ ⟨hd.1.step op, hd.2.step hd.1 op⟩
  exact key.2

/-! ## The bookkeeping of the slots -/

/-- The structures that say which slots are in use agree. -/
structure Bookkeeping (c : Cache) : Prop where
  activeNodup : c.activeSlots.Nodup
  freeNodup : c.freeSlots.Nodup
  /-- The two lists partition the slots. -/
  cover : ∀ s, s < MAX_PENDING_OBJS ↔ s ∈ c.activeSlots ∨ s ∈ c.freeSlots
  disjoint : ∀ s ∈ c.activeSlots, s ∉ c.freeSlots
  count : c.activePending = c.activeSlots.length
  active : ∀ s, (c.pending s).active = true ↔ s ∈ c.activeSlots
  index : ∀ s ∈ c.activeSlots, c.activeSlots[(c.pending s).activeSlotsIdx]? = some s
  ids : ∀ i s, c.idToSlot i = some s ↔ s ∈ c.activeSlots ∧ (c.pending s).originalId = i
  distinct : ∀ s ∈ c.activeSlots, ∀ t ∈ c.activeSlots,
    (c.pending s).originalId = (c.pending t).originalId → s = t
  room : c.activeSlots.length ≤ MAX_PENDING_OBJS - 1
  /-- Whenever a cycle asks for a slot, it gets one. -/
  alloc : ∀ d ∈ c.processPoints, d.allocPendingSlot.1 < MAX_PENDING_OBJS

/-- The slots of a bank are in order in every state of every run, with any responses. -/
theorem Run.bookkeeping {t : List (Cache × Op)} {c : Cache} (run : Run t c) : c.Bookkeeping := by
  have h := run.slotsWF
  have hroom := run.room
  refine ⟨h.nodup, h.freeNodup, h.cover, h.disjoint, h.count, h.active,
    fun s hs => activeSlots_index h hs, h.ids, fun s hs t ht heq => ?_, hroom, fun d hd => ?_⟩
  · have hslot := (h.ids _ s).mpr ⟨hs, rfl⟩
    rw [(h.ids _ t).mpr ⟨ht, heq.symm⟩] at hslot
    exact (Option.some.inj hslot).symm
  · obtain ⟨hd, hfree⟩ := (hroom.cycle h).2 d hd
    refine hd.allocPendingSlot ?_
    unfold Room MAX_PENDING_OBJS at hfree
    unfold MAX_PENDING_OBJS
    omega

/-- The bank after a cycle that opens an object. -/
theorem bookkeeping_readOther :
    (([.pushRequest Bank.readOther, .cycle] : List Op).foldl step init).Bookkeeping :=
  Run.bookkeeping (Machine.Run.of_foldl step init _)

end Cache

end OnnxSim
