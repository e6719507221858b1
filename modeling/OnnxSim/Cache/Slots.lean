import OnnxSim.Cache.Lines
import OnnxSim.Cache.Run
import OnnxSim.Lib.SwapRemove

/-!
# The pending slots of a bank

Every slot is either active or on the free list. The dense array `_active_slots` lists the active
slots, each active object stores its own position in it, and the map from object ids names the slot
of each pending object (`SlotsWF`). Every entry point of the bank keeps this.
-/

namespace OnnxSim

namespace Cache

open SwapRemove

/-! ## What each operation leaves alone -/

@[simp] theorem poolAlloc_frame (c : Cache) :
    c.poolAlloc.2.sets = c.sets ∧ c.poolAlloc.2.pending = c.pending ∧
      c.poolAlloc.2.activeSlots = c.activeSlots ∧ c.poolAlloc.2.activePending = c.activePending ∧
      c.poolAlloc.2.inQ = c.inQ ∧ c.poolAlloc.2.missQ = c.missQ ∧ c.poolAlloc.2.wbQ = c.wbQ ∧
      c.poolAlloc.2.outQ = c.outQ ∧ c.poolAlloc.2.freeSlots = c.freeSlots ∧
      c.poolAlloc.2.idToSlot = c.idToSlot := by
  cases h : c.poolFree <;> simp [poolAlloc, h]

@[simp] theorem poolRelease_frame (c : Cache) (p : MemoryPtr) :
    (c.poolRelease p).sets = c.sets ∧ (c.poolRelease p).pending = c.pending ∧
      (c.poolRelease p).activeSlots = c.activeSlots ∧
      (c.poolRelease p).activePending = c.activePending ∧ (c.poolRelease p).inQ = c.inQ ∧
      (c.poolRelease p).missQ = c.missQ ∧ (c.poolRelease p).wbQ = c.wbQ ∧
      (c.poolRelease p).outQ = c.outQ ∧ (c.poolRelease p).freeSlots = c.freeSlots ∧
      (c.poolRelease p).idToSlot = c.idToSlot := by
  cases p <;> simp [poolRelease]

@[simp] theorem setPending_frame (c : Cache) (s : Nat) (po : PendingObject) :
    (c.setPending s po).sets = c.sets ∧ (c.setPending s po).activeSlots = c.activeSlots ∧
      (c.setPending s po).activePending = c.activePending ∧ (c.setPending s po).inQ = c.inQ ∧
      (c.setPending s po).missQ = c.missQ ∧ (c.setPending s po).wbQ = c.wbQ ∧
      (c.setPending s po).outQ = c.outQ ∧ (c.setPending s po).freeSlots = c.freeSlots ∧
      (c.setPending s po).idToSlot = c.idToSlot :=
  ⟨rfl, rfl, rfl, rfl, rfl, rfl, rfl, rfl, rfl⟩

@[simp] theorem setPending_pending (c : Cache) (s : Nat) (po : PendingObject) :
    (c.setPending s po).pending = Function.update c.pending s po := rfl

@[simp] theorem freePendingSlot_frame (c : Cache) (s : Nat) :
    (c.freePendingSlot s).sets = c.sets ∧ (c.freePendingSlot s).inQ = c.inQ ∧
      (c.freePendingSlot s).missQ = c.missQ ∧ (c.freePendingSlot s).wbQ = c.wbQ ∧
      (c.freePendingSlot s).outQ = c.outQ := by
  unfold freePendingSlot
  dsimp only
  split <;> simp

@[simp] theorem issueBlock_frame (s : Nat) (c : Cache) :
    (issueBlock s c).sets = c.sets ∧ (issueBlock s c).activeSlots = c.activeSlots ∧
      (issueBlock s c).activePending = c.activePending ∧ (issueBlock s c).inQ = c.inQ ∧
      (issueBlock s c).wbQ = c.wbQ ∧ (issueBlock s c).outQ = c.outQ ∧
      (issueBlock s c).freeSlots = c.freeSlots ∧ (issueBlock s c).idToSlot = c.idToSlot := by
  simp [issueBlock]

/-- `m` is the sub-request for block `k` of the object in `slot`. -/
structure IsBlockOf (slot : Nat) (po : PendingObject) (k : Nat) (m : MemoryAccess) : Prop where
  id : m.id = slot
  size : m.size = BLOCK_SIZE
  objectSize : m.objectSize = BLOCK_SIZE
  address : m.dramAddress = po.baseAddr + BitVec.ofNat 64 (k * BLOCK_SIZE)

theorem issueBlock_missQ (s : Nat) (c : Cache) :
    ∃ m, (issueBlock s c).missQ = c.missQ ++ [m] ∧
      IsBlockOf s (c.pending s) (c.pending s).issuedBlocks m := by
  let po := c.pending s
  let sub : MemoryAccess :=
    { ptr := c.poolAlloc.1, id := s,
      dramAddress := po.baseAddr + BitVec.ofNat 64 (po.issuedBlocks * BLOCK_SIZE),
      size := BLOCK_SIZE, objectSize := BLOCK_SIZE, write := po.isWrite, request := true,
      coreId := po.coreId, bufferId := 0 }
  have hsub : IsBlockOf s po po.issuedBlocks sub := ⟨rfl, rfl, rfl, rfl⟩
  exact ⟨sub, by simp [issueBlock, sub, po], hsub⟩

/-- What `n` turns of the loop of `issue_blocks` do. -/
structure IssueSpec (c c' : Cache) (slot n : Nat) : Prop where
  frame : c'.sets = c.sets ∧ c'.activeSlots = c.activeSlots ∧ c'.activePending = c.activePending ∧
    c'.inQ = c.inQ ∧ c'.wbQ = c.wbQ ∧ c'.outQ = c.outQ ∧ c'.freeSlots = c.freeSlots ∧
    c'.idToSlot = c.idToSlot
  pending : c'.pending = Function.update c.pending slot
    { c.pending slot with issuedBlocks := (c.pending slot).issuedBlocks + n }
  missQ : ∃ subs, c'.missQ = c.missQ ++ subs ∧ subs.length = n ∧
    ∀ i m, subs[i]? = some m →
      IsBlockOf slot (c.pending slot) ((c.pending slot).issuedBlocks + i) m

theorem issueBlock_iterate (slot n : Nat) (c : Cache) :
    IssueSpec c ((issueBlock slot)^[n] c) slot n := by
  induction n with
  | zero => exact ⟨by simp, by simp, [], by simp⟩
  | succ n ih =>
    rw [Function.iterate_succ_apply']
    generalize (issueBlock slot)^[n] c = d at ih
    obtain ⟨hframe, hpend, subs, hq, hlen, hsubs⟩ := ih
    obtain ⟨m, hm, hsub⟩ := issueBlock_missQ slot d
    refine ⟨by simp only [issueBlock_frame]; exact hframe, ?_, subs ++ [m], ?_, ?_, ?_⟩
    · simp [issueBlock, hpend, Nat.add_assoc]
    · rw [hm, hq, List.append_assoc]
    · simp [hlen]
    · intro i x hx
      by_cases hi : i < subs.length
      · rw [List.getElem?_append_left hi] at hx
        exact hsubs i x hx
      · rw [List.getElem?_append_right (by omega)] at hx
        obtain ⟨hlt, rfl⟩ := List.getElem?_eq_some_iff.mp hx
        have hin : i = n := by
          simp only [List.length_singleton] at hlt
          omega
        have haddr := hsub.address
        rw [hpend, Function.update_self] at haddr
        subst hin
        simp only [hlen, Nat.sub_self, List.getElem_cons_zero]
        exact ⟨hsub.id, hsub.size, hsub.objectSize, haddr⟩

/-- Every sub-request issued is a block of the object in `slot`. -/
theorem IssueSpec.subs {c c' : Cache} {slot n : Nat} (h : IssueSpec c c' slot n) :
    ∃ subs, c'.missQ = c.missQ ++ subs ∧ subs.length = n ∧
      ∀ m ∈ subs, ∃ k, k < (c.pending slot).issuedBlocks + n ∧
        IsBlockOf slot (c.pending slot) k m := by
  obtain ⟨subs, hq, hlen, hsubs⟩ := h.missQ
  refine ⟨subs, hq, hlen, fun m hm => ?_⟩
  obtain ⟨i, hi⟩ := List.mem_iff_getElem?.mp hm
  have hlt := (List.getElem?_eq_some_iff.mp hi).1
  exact ⟨_, by omega, hsubs i m hi⟩

theorem issueBlocks_spec (c : Cache) (slot : Nat) :
    IssueSpec c (c.issueBlocks slot) slot (c.toIssue slot) := issueBlock_iterate _ _ _

/-- The object of a slot on the large-object path. -/
def burstObject (po : PendingObject) (objectSize : Nat) : PendingObject :=
  { po with
    isBurstMode := true, burstCountdown := computeBurstCycles objectSize,
    issuedBlocks := po.totalBlocks }

theorem issueBurst_spec (c : Cache) (slot : Nat) (req : MemoryAccess) :
    ((c.issueBurst slot req).sets = c.sets ∧ (c.issueBurst slot req).activeSlots = c.activeSlots ∧
      (c.issueBurst slot req).activePending = c.activePending ∧
      (c.issueBurst slot req).inQ = c.inQ ∧ (c.issueBurst slot req).wbQ = c.wbQ ∧
      (c.issueBurst slot req).outQ = c.outQ ∧ (c.issueBurst slot req).freeSlots = c.freeSlots ∧
      (c.issueBurst slot req).idToSlot = c.idToSlot) ∧
    (c.issueBurst slot req).pending =
      Function.update c.pending slot (burstObject (c.pending slot) req.objectSize) ∧
    ∃ m, (c.issueBurst slot req).missQ = c.missQ ++ [m] ∧ m.id = slot ∧
      m.dramAddress = blockBase req.dramAddress ∧ m.size = req.objectSize := by
  refine ⟨by simp [issueBurst], by simp [issueBurst, burstObject], ?_⟩
  refine ⟨_, by simp only [issueBurst, poolAlloc_frame, setPending_frame]; rfl, rfl, rfl, rfl⟩

/-! ## Well-formed slots -/

structure SlotsWF (c : Cache) : Prop where
  nodup : c.activeSlots.Nodup
  freeNodup : c.freeSlots.Nodup
  cover : ∀ s, s < MAX_PENDING_OBJS ↔ s ∈ c.activeSlots ∨ s ∈ c.freeSlots
  disjoint : ∀ s ∈ c.activeSlots, s ∉ c.freeSlots
  active : ∀ s, (c.pending s).active = true ↔ s ∈ c.activeSlots
  count : c.activePending = c.activeSlots.length
  index : ∀ (i s : Nat), c.activeSlots[i]? = some s → (c.pending s).activeSlotsIdx = i
  ids : ∀ i s, c.idToSlot i = some s ↔ s ∈ c.activeSlots ∧ (c.pending s).originalId = i
  issued : ∀ s ∈ c.activeSlots, (c.pending s).issuedBlocks ≤ (c.pending s).totalBlocks ∧
    (c.pending s).totalBlocks < 2 ^ 32
  waiting : ∀ s, s ∉ c.activeSlots → (c.pending s).waitingReqs = []

theorem slotsWF_init : init.SlotsWF := by
  have hfree : init.freeSlots = List.range MAX_PENDING_OBJS := by simp only [init]
  refine ⟨by simp [init], ?_, fun s => ?_, ?_, ?_, by simp [init], ?_, ?_, ?_, ?_⟩
  · rw [hfree]
    exact List.nodup_range
  · rw [hfree, List.mem_range]
    simp [init]
  · simp [init]
  · simp [init]
  · simp [init]
  · simp [init]
  · simp [init]
  · simp [init]

/-- The fields `SlotsWF` reads of a pending object. -/
def SameKey (po po' : PendingObject) : Prop :=
  po'.active = po.active ∧ po'.activeSlotsIdx = po.activeSlotsIdx ∧
    po'.originalId = po.originalId ∧ po'.totalBlocks = po.totalBlocks

/-- An operation that keeps the lists of slots and what identifies each object. -/
theorem SlotsWF.congr {c c' : Cache} (h : c.SlotsWF)
    (hlists : c'.activeSlots = c.activeSlots ∧ c'.activePending = c.activePending ∧
      c'.freeSlots = c.freeSlots ∧ c'.idToSlot = c.idToSlot)
    (hkey : ∀ s, SameKey (c.pending s) (c'.pending s))
    (hissued : ∀ s ∈ c.activeSlots, (c'.pending s).issuedBlocks ≤ (c.pending s).totalBlocks)
    (hwaiting : ∀ s, s ∉ c.activeSlots → (c'.pending s).waitingReqs = []) : c'.SlotsWF := by
  obtain ⟨ha, hn, hf, hi⟩ := hlists
  refine ⟨ha ▸ h.nodup, hf ▸ h.freeNodup, ?_, ?_, ?_, ?_, ?_, ?_, ?_, ?_⟩
  · rw [ha, hf]
    exact h.cover
  · rw [ha, hf]
    exact h.disjoint
  · intro s
    rw [ha, (hkey s).1]
    exact h.active s
  · rw [ha, hn, h.count]
  · intro i s hs
    rw [(hkey s).2.1]
    exact h.index i s (ha ▸ hs)
  · intro i s
    rw [ha, hi, (hkey s).2.2.1]
    exact h.ids i s
  · intro s hs
    rw [ha] at hs
    rw [(hkey s).2.2.2]
    exact ⟨hissued s hs, (h.issued s hs).2⟩
  · rw [ha]
    exact hwaiting

/-- The same for an operation that leaves the pending objects alone. -/
theorem SlotsWF.of_frame {c c' : Cache} (h : c.SlotsWF) (hp : c'.pending = c.pending)
    (hlists : c'.activeSlots = c.activeSlots ∧ c'.activePending = c.activePending ∧
      c'.freeSlots = c.freeSlots ∧ c'.idToSlot = c.idToSlot) : c'.SlotsWF := by
  refine h.congr hlists (fun s => ?_) (fun s hs => ?_) (fun s hs => ?_)
  · rw [hp]
    exact ⟨rfl, rfl, rfl, rfl⟩
  · rw [hp]
    exact (h.issued s hs).1
  · rw [hp]
    exact h.waiting s hs

/-- Rewriting an active slot without changing what identifies its object. -/
theorem SlotsWF.setPending {c : Cache} (h : c.SlotsWF) {s : Nat} (po : PendingObject)
    (hs : s ∈ c.activeSlots) (hkey : SameKey (c.pending s) po)
    (hissued : po.issuedBlocks ≤ po.totalBlocks) : (c.setPending s po).SlotsWF := by
  refine h.congr ⟨rfl, rfl, rfl, rfl⟩ (fun t => ?_) (fun t ht => ?_) (fun t ht => ?_)
  · by_cases hts : t = s
    · subst hts
      simpa using hkey
    · simp [hts, SameKey]
  · by_cases hts : t = s
    · subst hts
      simpa [hkey.2.2.2] using hissued
    · simpa [hts] using (h.issued t ht).1
  · have hts : t ≠ s := by
      intro heq
      exact ht (heq ▸ hs)
    simpa [hts] using h.waiting t ht

theorem SlotsWF.lt {c : Cache} (h : c.SlotsWF) {s : Nat} (hs : s ∈ c.activeSlots) :
    s < MAX_PENDING_OBJS := (h.cover s).mpr (.inl hs)

/-- A pending object is found by its id exactly in its active slot. -/
theorem SlotsWF.findPendingSlot {c : Cache} (h : c.SlotsWF) (i : Nat) :
    (c.findPendingSlot i < MAX_PENDING_OBJS ∧ c.findPendingSlot i ∈ c.activeSlots ∧
      (c.pending (c.findPendingSlot i)).originalId = i) ∨
    (¬ c.findPendingSlot i < MAX_PENDING_OBJS ∧ c.idToSlot i = none ∧
      ∀ s ∈ c.activeSlots, (c.pending s).originalId ≠ i) := by
  unfold Cache.findPendingSlot
  cases hi : c.idToSlot i with
  | some s =>
    obtain ⟨hs, hid⟩ := (h.ids i s).mp hi
    exact .inl ⟨h.lt hs, hs, hid⟩
  | none =>
    refine .inr ⟨by simp, rfl, fun s hs heq => ?_⟩
    have := (h.ids i s).mpr ⟨hs, heq⟩
    rw [hi] at this
    cases this

/-! ## Taking a slot -/

/-- The bank with the slot `slot` of its free list set up for the miss `req`. -/
theorem SlotsWF.openSlot {c : Cache} (h : c.SlotsWF) {slot : Nat} {rest : List Nat}
    (hfree : c.freeSlots = slot :: rest) (req : MemoryAccess) (hnew : c.idToSlot req.id = none) :
    ({ c with freeSlots := rest }.openSlot slot req).SlotsWF := by
  have hslot : slot ∈ c.freeSlots := by simp [hfree]
  have hinactive : slot ∉ c.activeSlots := fun hs => h.disjoint slot hs hslot
  have hrest := h.freeNodup
  rw [hfree, List.nodup_cons] at hrest
  have hne : ∀ s ∈ c.activeSlots, s ≠ slot := fun s hs heq => hinactive (heq ▸ hs)
  refine ⟨?_, hrest.2, ?_, ?_, ?_, ?_, ?_, ?_, ?_, ?_⟩
  · simp only [Cache.openSlot]
    exact h.nodup.append (List.nodup_singleton slot) (by simpa using hinactive)
  · intro s
    have := h.cover s
    rw [hfree, List.mem_cons] at this
    simp only [Cache.openSlot, setPending_frame, List.mem_append, List.mem_singleton]
    rw [this]
    tauto
  · intro s hs
    simp only [Cache.openSlot, setPending_frame, List.mem_append, List.mem_singleton] at hs ⊢
    rcases hs with hs | rfl
    · intro hsr
      exact h.disjoint s hs (by simp [hfree, hsr])
    · exact hrest.1
  · intro s
    simp only [Cache.openSlot, setPending_frame, setPending_pending, List.mem_append,
      List.mem_singleton]
    by_cases hs : s = slot
    · subst hs
      simp
    · simpa [hs] using h.active s
  · simp [Cache.openSlot, h.count]
  · intro i s hs
    simp only [Cache.openSlot, setPending_frame, setPending_pending] at hs ⊢
    by_cases hlt : i < c.activeSlots.length
    · rw [List.getElem?_append_left hlt] at hs
      simpa [hne s (List.mem_of_getElem? hs)] using h.index i s hs
    · rw [List.getElem?_append_right (by omega)] at hs
      have hi : i - c.activeSlots.length = 0 := by
        have := (List.getElem?_eq_some_iff.mp hs).1
        simp only [List.length_singleton] at this
        omega
      rw [hi] at hs
      have : slot = s := by simpa using hs
      subst this
      simp
      omega
  · intro i s
    simp only [Cache.openSlot, setPending_frame, setPending_pending, List.mem_append,
      List.mem_singleton]
    by_cases hs : s = slot
    · subst hs
      by_cases hi : i = req.id
      · subst hi
        simp
      · have : c.idToSlot i ≠ some s := fun hc => hinactive ((h.ids i s).mp hc).1
        simp [hi, this, Ne.symm hi]
    · by_cases hi : i = req.id
      · subst hi
        have hno : ¬ (s ∈ c.activeSlots ∧ (c.pending s).originalId = req.id) := by
          rw [← h.ids, hnew]
          simp
        simpa [hs, Ne.symm hs] using hno
      · simpa [hs, hi] using h.ids i s
  · intro s hs
    simp only [Cache.openSlot, setPending_frame, setPending_pending, List.mem_append,
      List.mem_singleton] at hs ⊢
    rcases hs with hs | rfl
    · simpa [hne s hs] using h.issued s hs
    · simp only [Function.update_self, nBlocks, BLOCK_SIZE]
      omega
  · intro s hs
    simp only [Cache.openSlot, setPending_frame, setPending_pending, List.mem_append,
      List.mem_singleton, not_or] at hs ⊢
    simpa [hs.2] using h.waiting s hs.1

/-! ## Freeing a slot -/

section Free

variable {c : Cache} (h : c.SlotsWF) {slot : Nat} (hs : slot ∈ c.activeSlots)

include h hs in
theorem activeSlots_index : c.activeSlots[(c.pending slot).activeSlotsIdx]? = some slot := by
  obtain ⟨i, hi⟩ := List.mem_iff_getElem?.mp hs
  rw [h.index i slot hi, hi]

include h hs in
/-- The slot leaves the dense array, and its last slot takes the place. -/
theorem freePendingSlot_lists :
    (c.freePendingSlot slot).activeSlots =
        swapRemove c.activeSlots (c.pending slot).activeSlotsIdx 0 ∧
      (c.freePendingSlot slot).activePending = c.activePending - 1 ∧
      (c.freePendingSlot slot).freeSlots = slot :: c.freeSlots ∧
      (c.freePendingSlot slot).idToSlot =
        Function.update c.idToSlot (c.pending slot).originalId none := by
  have hlt := (List.getElem?_eq_some_iff.mp (activeSlots_index h hs)).1
  simp [freePendingSlot, PendingObject.reset, hlt, swapRemove]

include h hs in
theorem freePendingSlot_pending (x : Nat) :
    (c.freePendingSlot slot).pending x =
      { (if x = slot then (c.pending slot).reset else c.pending x) with
        activeSlotsIdx :=
          if x = c.activeSlots.getLastD 0 then (c.pending slot).activeSlotsIdx
          else (c.pending x).activeSlotsIdx } := by
  have hlt := (List.getElem?_eq_some_iff.mp (activeSlots_index h hs)).1
  have heq : (c.freePendingSlot slot).pending =
      Function.update (Function.update c.pending slot (c.pending slot).reset)
        (c.activeSlots.getLastD 0)
        { Function.update c.pending slot (c.pending slot).reset (c.activeSlots.getLastD 0) with
          activeSlotsIdx := (c.pending slot).activeSlotsIdx } := by
    simp [freePendingSlot, PendingObject.reset, hlt, -List.getLastD_eq_getLast?]
  rw [heq]
  generalize c.activeSlots.getLastD 0 = moved
  by_cases hxm : x = moved
  · subst hxm
    by_cases hx : x = slot
    · subst hx
      simp
    · simp [hx]
  · by_cases hx : x = slot
    · subst hx
      simp [hxm, PendingObject.reset]
    · simp [hx, hxm]

include h hs in
/-- The other objects keep everything but their position. -/
theorem freePendingSlot_other {x : Nat} (hx : x ≠ slot) :
    ∃ i, (c.freePendingSlot slot).pending x = { c.pending x with activeSlotsIdx := i } := by
  rw [freePendingSlot_pending h hs x, if_neg hx]
  exact ⟨_, rfl⟩

include h hs in
theorem mem_freePendingSlot {x : Nat} :
    x ∈ (c.freePendingSlot slot).activeSlots ↔ x ∈ c.activeSlots ∧ x ≠ slot := by
  rw [(freePendingSlot_lists h hs).1]
  exact mem_swapRemove 0 h.nodup (activeSlots_index h hs)

include h hs in
theorem SlotsWF.freePendingSlot : (c.freePendingSlot slot).SlotsWF := by
  obtain ⟨ha, hn, hf, hi⟩ := freePendingSlot_lists h hs
  have hmem := @mem_freePendingSlot c h slot hs
  have hidx := activeSlots_index h hs
  have hlt := (List.getElem?_eq_some_iff.mp hidx).1
  have hnotfree := h.disjoint slot hs
  refine ⟨?_, ?_, ?_, ?_, ?_, ?_, ?_, ?_, ?_, ?_⟩
  · rw [ha]
    exact nodup_swapRemove 0 h.nodup hidx
  · rw [hf]
    exact List.nodup_cons.mpr ⟨hnotfree, h.freeNodup⟩
  · intro x
    rw [hmem, hf, List.mem_cons, h.cover x]
    by_cases hx : x = slot
    · subst hx
      simp [hs]
    · simp [hx]
  · intro x hx
    rw [hmem] at hx
    rw [hf, List.mem_cons, not_or]
    exact ⟨hx.2, h.disjoint x hx.1⟩
  · intro x
    rw [hmem]
    by_cases hx : x = slot
    · subst hx
      rw [freePendingSlot_pending h hs x, if_pos rfl]
      simp [PendingObject.reset]
    · obtain ⟨i, hi⟩ := freePendingSlot_other h hs hx
      rw [hi]
      simpa [hx] using h.active x
  · rw [ha, hn, length_swapRemove, h.count]
  · intro i x hx
    have hxs := (hmem.mp (List.mem_of_getElem? hx)).2
    rw [ha, getElem?_swapRemove 0 hlt] at hx
    have hback : c.activeSlots.getLast? = c.activeSlots[c.activeSlots.length - 1]? :=
      List.getLast?_eq_getElem?
    have hlast : c.activeSlots.getLast? = some (c.activeSlots.getLastD 0) := by
      rw [List.getLastD_eq_getLast?]
      cases hl : c.activeSlots.getLast? with
      | some y => rfl
      | none => simp [List.getLast?_eq_none_iff.mp hl] at hlt
    rw [freePendingSlot_pending h hs x]
    simp only
    split at hx
    · rename_i hil
      split at hx
      · rename_i hieq
        rw [hlast] at hx
        rw [if_pos (Option.some.inj hx).symm, hieq]
      · -- a position before the last one that keeps its slot
        rw [if_neg, h.index i x hx]
        intro heq
        have hend : c.activeSlots[c.activeSlots.length - 1]? = some x := by
          rw [← hback, hlast, heq]
        have h1 := h.index _ x hend
        have h2 := h.index i x hx
        omega
    · cases hx
  · intro i x
    rw [hi, hmem]
    by_cases hx : x = slot
    · subst hx
      have : ¬ Function.update c.idToSlot (c.pending x).originalId none i = some x := by
        by_cases hii : i = (c.pending x).originalId
        · simp [hii]
        · rw [Function.update_of_ne hii, h.ids i x]
          exact fun hc => hii hc.2.symm
      simp [this]
    · obtain ⟨j, hj⟩ := freePendingSlot_other h hs hx
      rw [hj]
      by_cases hii : i = (c.pending slot).originalId
      · -- no other slot holds the freed object's id
        rw [hii, Function.update_self]
        have hslot := (h.ids (c.pending slot).originalId slot).mpr ⟨hs, rfl⟩
        have hno : ¬ (x ∈ c.activeSlots ∧ (c.pending x).originalId = (c.pending slot).originalId) := by
          intro hc
          have hxid := (h.ids _ x).mpr hc
          rw [hslot] at hxid
          exact hx (Option.some.inj hxid).symm
        simpa [hx] using hno
      · rw [Function.update_of_ne hii, h.ids i x]
        simp [hx]
  · intro x hx
    rw [hmem] at hx
    obtain ⟨j, hj⟩ := freePendingSlot_other h hs hx.2
    rw [hj]
    exact h.issued x hx.1
  · intro x hx
    rw [hmem] at hx
    by_cases hxs : x = slot
    · subst hxs
      rw [freePendingSlot_pending h hs x, if_pos rfl]
      rfl
    · obtain ⟨j, hj⟩ := freePendingSlot_other h hs hxs
      rw [hj]
      exact h.waiting x (fun hc => hx ⟨hc, hxs⟩)

end Free

/-! ## The entry points -/

theorem toIssue_le {c : Cache} (h : c.SlotsWF) {slot : Nat} (hs : slot ∈ c.activeSlots) :
    (c.pending slot).issuedBlocks + c.toIssue slot ≤ (c.pending slot).totalBlocks := by
  obtain ⟨hle, hlt⟩ := h.issued slot hs
  have hsub := sub32_of_le hle hlt
  unfold toIssue
  dsimp only
  rw [hsub]
  omega

theorem SlotsWF.issueBlocks {c : Cache} (h : c.SlotsWF) {slot : Nat} (hs : slot ∈ c.activeSlots) :
    (c.issueBlocks slot).SlotsWF := by
  obtain ⟨⟨-, ha, hn, -, -, -, hf, hi⟩, hpend, -⟩ := issueBlocks_spec c slot
  have hset := h.setPending { c.pending slot with
    issuedBlocks := (c.pending slot).issuedBlocks + c.toIssue slot } hs ⟨rfl, rfl, rfl, rfl⟩
    (toIssue_le h hs)
  exact hset.of_frame hpend ⟨ha, hn, hf, hi⟩

theorem SlotsWF.fill {c : Cache} (h : c.SlotsWF) (a : AddrType) (wr : Bool) (k : BitVec 32) :
    (c.fill a wr k).SlotsWF := h.of_frame (by simp) (by simp)

theorem SlotsWF.poolRelease {c : Cache} (h : c.SlotsWF) (p : MemoryPtr) :
    (c.poolRelease p).SlotsWF := h.of_frame (by simp) (by simp)

theorem SlotsWF.continueIssue {c : Cache} (h : c.SlotsWF) {slot : Nat}
    (hs : slot ∈ c.activeSlots) : (c.continueIssue slot).SlotsWF := by
  unfold Cache.continueIssue
  split
  · exact h
  · split
    · exact h.issueBlocks hs
    · exact h

theorem continueIssue_activeSlots (c : Cache) (slot : Nat) :
    (c.continueIssue slot).activeSlots = c.activeSlots := by
  unfold continueIssue
  split
  · rfl
  · split
    · exact (issueBlocks_spec c slot).frame.2.1
    · rfl

/-- The head `req` of the input queue becomes the object of the free slot `slot`. -/
def openMiss (c : Cache) (slot : Nat) (slots : List Nat) (req : MemoryAccess)
    (rest : List MemoryAccess) : Cache :=
  { c with inQ := rest, freeSlots := slots }.openSlot slot req

/-- The per-block path of a new miss. -/
def issueFirst (c : Cache) (slot : Nat) : Cache :=
  (c.setPending slot { c.pending slot with isBurstMode := false }).issueBlocks slot

theorem issueFirst_spec (c : Cache) (slot : Nat) :
    ((c.issueFirst slot).sets = c.sets ∧ (c.issueFirst slot).activeSlots = c.activeSlots ∧
      (c.issueFirst slot).activePending = c.activePending ∧ (c.issueFirst slot).inQ = c.inQ ∧
      (c.issueFirst slot).wbQ = c.wbQ ∧ (c.issueFirst slot).outQ = c.outQ ∧
      (c.issueFirst slot).freeSlots = c.freeSlots ∧ (c.issueFirst slot).idToSlot = c.idToSlot) ∧
    (c.issueFirst slot).pending = Function.update c.pending slot
      { c.pending slot with
        isBurstMode := false, issuedBlocks := (c.pending slot).issuedBlocks + c.toIssue slot } ∧
    ∃ subs, (c.issueFirst slot).missQ = c.missQ ++ subs ∧ subs.length = c.toIssue slot ∧
      ∀ i m, subs[i]? = some m →
        IsBlockOf slot (c.pending slot) ((c.pending slot).issuedBlocks + i) m := by
  have hissue : (c.setPending slot { c.pending slot with isBurstMode := false }).toIssue slot =
      c.toIssue slot := by
    simp [toIssue]
  obtain ⟨hframe, hpend, hmiss⟩ :=
    issueBlocks_spec (c.setPending slot { c.pending slot with isBurstMode := false }) slot
  rw [hissue] at hpend hmiss
  simp only [setPending_frame] at hframe
  refine ⟨hframe, ?_, ?_⟩
  · rw [issueFirst, hpend]
    simp
  · obtain ⟨subs, hq, hlen, hsubs⟩ := hmiss
    refine ⟨subs, hq, hlen, fun i m hm => ?_⟩
    have hblock := hsubs i m hm
    simp only [setPending_pending, Function.update_self] at hblock
    exact ⟨hblock.id, hblock.size, hblock.objectSize, hblock.address⟩

/-- The outcomes of one call of `process_one_request` on the head `req` of the input queue. -/
inductive ProcessCase (c : Cache) (req : MemoryAccess) (rest : List MemoryAccess) : Prop
  | hit (hit : c.checkHit req.dramAddress = true)
      (eq : c.processOneRequest = (true, { c with inQ := rest }.answerHit req))
  | coalesced (miss : c.checkHit req.dramAddress = false) (slot : Nat)
      (find : c.findPendingSlot req.id = slot) (lt : slot < MAX_PENDING_OBJS)
      (eq : c.processOneRequest = (true, { c with inQ := rest }.setPending slot
        { c.pending slot with waitingReqs := (c.pending slot).waitingReqs ++ [req] }))
  | full (miss : c.checkHit req.dramAddress = false)
      (find : ¬ c.findPendingSlot req.id < MAX_PENDING_OBJS) (free : c.freeSlots = [])
      (eq : c.processOneRequest = (true, c))
  | burst (miss : c.checkHit req.dramAddress = false)
      (find : ¬ c.findPendingSlot req.id < MAX_PENDING_OBJS) (slot : Nat) (slots : List Nat)
      (free : c.freeSlots = slot :: slots) (large : LARGE_OBJ_THRESHOLD ≤ req.objectSize)
      (eq : c.processOneRequest = (true, (c.openMiss slot slots req rest).issueBurst slot req))
  | blocks (miss : c.checkHit req.dramAddress = false)
      (find : ¬ c.findPendingSlot req.id < MAX_PENDING_OBJS) (slot : Nat) (slots : List Nat)
      (free : c.freeSlots = slot :: slots) (small : ¬ LARGE_OBJ_THRESHOLD ≤ req.objectSize)
      (eq : c.processOneRequest = (true, (c.openMiss slot slots req rest).issueFirst slot))

theorem processOneRequest_cases {c : Cache} (h : c.SlotsWF) {req : MemoryAccess}
    {rest : List MemoryAccess} (hq : c.inQ = req :: rest) : ProcessCase c req rest := by
  have hcheck : ({ c with inQ := rest } : Cache).checkHit req.dramAddress =
      c.checkHit req.dramAddress := rfl
  have hfindEq : ({ c with inQ := rest } : Cache).findPendingSlot req.id =
      c.findPendingSlot req.id := rfl
  cases hhit : c.checkHit req.dramAddress with
  | true => exact .hit hhit (by simp only [processOneRequest, hq, hcheck, hhit, if_pos])
  | false =>
    rw [hhit] at hcheck
    by_cases hfind : c.findPendingSlot req.id < MAX_PENDING_OBJS
    · refine .coalesced hhit _ rfl hfind ?_
      rw [processOneRequest, hq]
      simp only [hcheck, hfindEq, if_pos hfind, Bool.false_eq_true, if_false]
    · have hmiss : c.processOneRequest =
          let taken := ({ c with inQ := rest } : Cache).allocPendingSlot
          if taken.1 = MAX_PENDING_OBJS then (true, { taken.2 with inQ := req :: taken.2.inQ })
          else
            let d := taken.2.openSlot taken.1 req
            if LARGE_OBJ_THRESHOLD ≤ req.objectSize then (true, d.issueBurst taken.1 req)
            else (true, (d.setPending taken.1
              { d.pending taken.1 with isBurstMode := false }).issueBlocks taken.1) := by
        rw [processOneRequest, hq]
        simp only [hcheck, hfindEq, if_neg hfind, Bool.false_eq_true, if_false]
      cases hfree : c.freeSlots with
      | nil =>
        refine .full hhit hfind hfree ?_
        rw [hmiss]
        simp only [allocPendingSlot, hfree, if_true, ← hq]
        rw [← hfree]
      | cons slot slots =>
        have hlt : slot < MAX_PENDING_OBJS := (h.cover slot).mpr (.inr (by simp [hfree]))
        by_cases hlarge : LARGE_OBJ_THRESHOLD ≤ req.objectSize
        · refine .burst hhit hfind slot slots hfree hlarge ?_
          rw [hmiss]
          simp only [allocPendingSlot, hfree, if_neg (Nat.ne_of_lt hlt), if_pos hlarge, openMiss]
        · refine .blocks hhit hfind slot slots hfree hlarge ?_
          rw [hmiss]
          simp only [allocPendingSlot, hfree, if_neg (Nat.ne_of_lt hlt), if_neg hlarge, openMiss,
            issueFirst]

theorem processOneRequest_nil {c : Cache} (hq : c.inQ = []) : c.processOneRequest = (false, c) := by
  simp [processOneRequest, hq]

/-- One block of the object has come back. -/
def countReturn (c : Cache) (slot : Nat) : Cache :=
  c.setPending slot { c.pending slot with returnedBlocks := (c.pending slot).returnedBlocks + 1 }

/-- The room the response made is used to issue more blocks. -/
def reissue (c : Cache) (slot : Nat) : Cache :=
  if (c.pending slot).issuedBlocks < (c.pending slot).totalBlocks &&
    c.missQ.length < MAX_MISS_Q_DEPTH then c.issueBlocks slot
  else c

/-- The requests waiting on the object are answered. -/
def answerWaiting (c : Cache) (slot : Nat) : Cache :=
  { c with outQ := c.outQ ++ (c.pending slot).waitingReqs.map MemoryAccess.answered }

@[simp] theorem answerWaiting_frame (c : Cache) (slot : Nat) :
    (c.answerWaiting slot).sets = c.sets ∧ (c.answerWaiting slot).pending = c.pending ∧
      (c.answerWaiting slot).activeSlots = c.activeSlots ∧
      (c.answerWaiting slot).activePending = c.activePending ∧
      (c.answerWaiting slot).inQ = c.inQ ∧ (c.answerWaiting slot).missQ = c.missQ ∧
      (c.answerWaiting slot).wbQ = c.wbQ ∧ (c.answerWaiting slot).freeSlots = c.freeSlots ∧
      (c.answerWaiting slot).idToSlot = c.idToSlot :=
  ⟨rfl, rfl, rfl, rfl, rfl, rfl, rfl, rfl, rfl⟩

/-- The waiting requests are answered and the slot is freed once every block has come back. -/
def complete (c : Cache) (slot : Nat) : Cache :=
  if (c.pending slot).totalBlocks ≤ (c.pending slot).returnedBlocks then
    (c.answerWaiting slot).freePendingSlot slot
  else c

theorem pushMemoryResponse_ignored {c : Cache} {resp : MemoryAccess}
    (h : (c.pending resp.id).active = false ∨ MAX_PENDING_OBJS ≤ resp.id) :
    c.pushMemoryResponse resp = c.poolRelease resp.ptr := by
  rw [pushMemoryResponse, if_pos]
  rcases h with h | h <;> simp [h]

theorem pushMemoryResponse_counted {c : Cache} {resp : MemoryAccess}
    (h : (c.pending resp.id).active = true) (hlt : resp.id < MAX_PENDING_OBJS) :
    c.pushMemoryResponse resp =
      ((((c.fill (blockBase resp.dramAddress) (c.pending resp.id).isWrite
        (c.pending resp.id).coreId).countReturn resp.id).reissue resp.id).complete resp.id).poolRelease
          resp.ptr := by
  rw [pushMemoryResponse, if_neg (by simp [h, hlt])]
  rfl

theorem SlotsWF.countReturn {c : Cache} (h : c.SlotsWF) {slot : Nat} (hs : slot ∈ c.activeSlots) :
    (c.countReturn slot).SlotsWF :=
  h.setPending _ hs ⟨rfl, rfl, rfl, rfl⟩ (h.issued slot hs).1

theorem SlotsWF.reissue {c : Cache} (h : c.SlotsWF) {slot : Nat} (hs : slot ∈ c.activeSlots) :
    (c.reissue slot).SlotsWF := by
  unfold Cache.reissue
  split
  · exact h.issueBlocks hs
  · exact h

theorem reissue_activeSlots (c : Cache) (slot : Nat) :
    (c.reissue slot).activeSlots = c.activeSlots := by
  unfold reissue
  split
  · exact (issueBlocks_spec c slot).frame.2.1
  · rfl

theorem SlotsWF.answerWaiting {c : Cache} (h : c.SlotsWF) (slot : Nat) :
    (c.answerWaiting slot).SlotsWF := h.of_frame rfl ⟨rfl, rfl, rfl, rfl⟩

theorem SlotsWF.complete {c : Cache} (h : c.SlotsWF) {slot : Nat} (hs : slot ∈ c.activeSlots) :
    (c.complete slot).SlotsWF := by
  unfold Cache.complete
  split
  · exact (h.answerWaiting slot).freePendingSlot hs
  · exact h

theorem SlotsWF.pushMemoryResponse {c : Cache} (h : c.SlotsWF) (resp : MemoryAccess) :
    (c.pushMemoryResponse resp).SlotsWF := by
  cases ha : (c.pending resp.id).active with
  | false =>
    rw [pushMemoryResponse_ignored (.inl ha)]
    exact h.poolRelease _
  | true =>
    have hs := (h.active resp.id).mp ha
    rw [pushMemoryResponse_counted ha (h.lt hs)]
    have hfill := h.fill (blockBase resp.dramAddress) (c.pending resp.id).isWrite
      (c.pending resp.id).coreId
    have hs1 : resp.id ∈ (c.fill (blockBase resp.dramAddress) (c.pending resp.id).isWrite
      (c.pending resp.id).coreId).activeSlots := by
      simpa using hs
    have hcount := hfill.countReturn hs1
    have hs2 : resp.id ∈ ((c.fill (blockBase resp.dramAddress) (c.pending resp.id).isWrite
      (c.pending resp.id).coreId).countReturn resp.id).activeSlots := hs1
    have hre := hcount.reissue hs2
    exact (hre.complete (by rw [reissue_activeSlots]; exact hs2)).poolRelease _

theorem openMiss_mem (c : Cache) (slot : Nat) (slots : List Nat) (req : MemoryAccess)
    (rest : List MemoryAccess) : slot ∈ (c.openMiss slot slots req rest).activeSlots := by
  simp [openMiss, openSlot]

theorem SlotsWF.openMiss {c : Cache} (h : c.SlotsWF) {slot : Nat} {slots : List Nat}
    (free : c.freeSlots = slot :: slots) {req : MemoryAccess}
    (find : ¬ c.findPendingSlot req.id < MAX_PENDING_OBJS) (rest : List MemoryAccess) :
    (c.openMiss slot slots req rest).SlotsWF := by
  have hpop : ({ c with inQ := rest } : Cache).SlotsWF := h.of_frame rfl ⟨rfl, rfl, rfl, rfl⟩
  obtain ⟨hlt, -⟩ | ⟨-, hnone, -⟩ := h.findPendingSlot req.id
  · exact absurd hlt find
  · exact hpop.openSlot free req hnone

theorem SlotsWF.processOneRequest {c : Cache} (h : c.SlotsWF) :
    c.processOneRequest.2.SlotsWF := by
  cases hq : c.inQ with
  | nil => rwa [processOneRequest_nil hq]
  | cons req rest =>
    have hpop : ({ c with inQ := rest } : Cache).SlotsWF := h.of_frame rfl ⟨rfl, rfl, rfl, rfl⟩
    cases processOneRequest_cases h hq with
    | hit _ eq =>
      rw [eq]
      exact hpop.of_frame (by simp) (by simp)
    | coalesced _ slot find lt eq =>
      rw [eq]
      obtain ⟨-, hs, -⟩ | ⟨hnot, -⟩ := h.findPendingSlot req.id
      · rw [find] at hs
        exact hpop.setPending _ hs ⟨rfl, rfl, rfl, rfl⟩ (h.issued slot hs).1
      · exact absurd (find ▸ lt) hnot
    | full _ _ _ eq => rwa [eq]
    | burst _ find slot slots free _ eq =>
      rw [eq]
      have hopen := h.openMiss free find rest
      obtain ⟨⟨-, ha, hn, -, -, -, hf, hi⟩, hpend, -⟩ :=
        issueBurst_spec (c.openMiss slot slots req rest) slot req
      have hset := hopen.setPending
        (burstObject ((c.openMiss slot slots req rest).pending slot) req.objectSize)
        (openMiss_mem c slot slots req rest) ⟨rfl, rfl, rfl, rfl⟩ (le_refl _)
      exact hset.of_frame hpend ⟨ha, hn, hf, hi⟩
    | blocks _ find slot slots free _ eq =>
      rw [eq]
      have hopen := h.openMiss free find rest
      have hs := openMiss_mem c slot slots req rest
      refine SlotsWF.issueBlocks ?_ hs
      exact hopen.setPending _ hs ⟨rfl, rfl, rfl, rfl⟩ (hopen.issued slot hs).1

theorem SlotsWF.cycle {c : Cache} (h : c.SlotsWF) : c.cycle.SlotsWF := by
  have hcont : c.continueIssues.SlotsWF :=
    continueIssues_induction continueIssue_activeSlots (fun d s hs hd => hd.continueIssue hs) h
  exact processRequests_induction (fun d _ hd => hd.processOneRequest) hcont

/-- Every entry point keeps the slots well formed, whatever the memory returns. -/
theorem SlotsWF.step {c : Cache} (h : c.SlotsWF) (op : Op) : (c.step op).SlotsWF := by
  cases op with
  | pushRequest req => exact h.of_frame rfl ⟨rfl, rfl, rfl, rfl⟩
  | cycle => exact h.cycle
  | popMissRequest => exact h.of_frame rfl ⟨rfl, rfl, rfl, rfl⟩
  | popWbRequest => exact h.of_frame rfl ⟨rfl, rfl, rfl, rfl⟩
  | pushMemoryResponse resp => exact h.pushMemoryResponse resp
  | popResponse => exact h.of_frame rfl ⟨rfl, rfl, rfl, rfl⟩

theorem Run.slotsWF {t : List (Cache × Op)} {c : Cache} (run : Run t c) : c.SlotsWF :=
  run.invariant slotsWF_init fun _ op _ hd hs => hs ▸ hd.step op

end Cache

/-- The slots of a bank with a memory are well formed in every reachable state. -/
theorem Bank.Run.slotsWF {t : List (Bank × Bank.Act)} {b : Bank} (run : Bank.Run t b) :
    b.l2.SlotsWF := run.l2_invariant Cache.slotsWF_init fun _ op h => h.step op

end OnnxSim
