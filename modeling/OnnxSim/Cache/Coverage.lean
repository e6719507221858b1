import OnnxSim.Cache.Depth
import OnnxSim.Lib.Spans

/-!
# The blocks of an object

The sub-requests that a bank issues for an object are read off the history of the run (`ledger`): what
each step appends to `_miss_q` under the id of the object's slot, since the step that opened it. They
are the blocks from the base on, one after the other, each once. Together they cover the object when it
is released exactly if the object ends within the blocks its size alone asks for, which leaves out the
offset of its first byte in the first block, and if all of these have been issued by then.
-/

namespace OnnxSim

namespace Cache

/-! ## The ledger of a slot -/

/-- What a step appends to the miss queue. -/
def emitted (c : Cache) (op : Op) : List MemoryAccess := (c.step op).missQ.drop c.missQ.length

/-- One step further in the ledger of slot `s`; a slot that is not in use has a clean page. -/
def book (s : Nat) (l : List MemoryAccess) (p : Cache × Op) : List MemoryAccess :=
  (if s ∈ p.1.activeSlots then l else []) ++ (emitted p.1 p.2).filter (·.id == s)

/-- The sub-requests issued in the history for the object that slot `s` holds at its end, or that its
last step released. -/
def ledger (h : List (Cache × Op)) (s : Nat) : List MemoryAccess := h.foldl (book s) []

theorem ledger_snoc (h : List (Cache × Op)) (c : Cache) (op : Op) (s : Nat) :
    ledger (h ++ [(c, op)]) s =
      (if s ∈ c.activeSlots then ledger h s else []) ++ (emitted c op).filter (·.id == s) := by
  rw [ledger, List.foldl_append]
  rfl

theorem emitted_of_append {c : Cache} (op : Op) {subs : List MemoryAccess}
    (h : (c.step op).missQ = c.missQ ++ subs) : emitted c op = subs := by
  rw [emitted, h, List.drop_left]

/-- The list holds the issued blocks of the object `po` of slot `s`, in order. -/
structure BlocksOf (s : Nat) (po : PendingObject) (l : List MemoryAccess) : Prop where
  length : l.length = po.issuedBlocks
  block : ∀ k m, l[k]? = some m → IsBlockOf s po k m

/-- The request that opened an object, and the object's blocks off the large-object path. -/
structure Opener (s : Nat) (po : PendingObject) (l : List MemoryAccess) (r : MemoryAccess) : Prop where
  first : po.waitingReqs.head? = some r
  base : po.baseAddr = blockBase r.dramAddress
  total : po.totalBlocks = nBlocks r.objectSize
  blocks : r.objectSize < LARGE_OBJ_THRESHOLD → BlocksOf s po l

/-- `page s` lists what was issued for the object in slot `s`. -/
structure Ledger (page : Nat → List MemoryAccess) (c : Cache) : Prop where
  clean : ∀ s, s ∉ c.activeSlots → page s = []
  opener : ∀ s ∈ c.activeSlots, ∃ r, Opener s (c.pending s) (page s) r

/-- The same page serves an object that changed in nothing that matters to it. -/
theorem Opener.congr {s : Nat} {po po' : PendingObject} {l : List MemoryAccess} {r : MemoryAccess}
    (h : Opener s po l r) (hw : po'.waitingReqs.head? = po.waitingReqs.head?)
    (hb : po'.baseAddr = po.baseAddr) (ht : po'.totalBlocks = po.totalBlocks)
    (hi : po'.issuedBlocks = po.issuedBlocks) : Opener s po' l r := by
  refine ⟨hw.trans h.first, hb.trans h.base, ht.trans h.total, fun hsmall => ?_⟩
  obtain ⟨hlen, hblock⟩ := h.blocks hsmall
  refine ⟨hlen.trans hi.symm, fun k m hm => ?_⟩
  have hm := hblock k m hm
  exact ⟨hm.id, hm.size, hm.objectSize, by rw [hb]; exact hm.address⟩

/-- Further blocks are issued for the object. -/
theorem Opener.append {s n : Nat} {po po' : PendingObject} {l subs : List MemoryAccess}
    {r : MemoryAccess} (h : Opener s po l r) (hlen : subs.length = n)
    (hsubs : ∀ i m, subs[i]? = some m → IsBlockOf s po (po.issuedBlocks + i) m)
    (hw : po'.waitingReqs = po.waitingReqs) (hb : po'.baseAddr = po.baseAddr)
    (ht : po'.totalBlocks = po.totalBlocks) (hi : po'.issuedBlocks = po.issuedBlocks + n) :
    Opener s po' (l ++ subs) r := by
  refine ⟨by rw [hw]; exact h.first, hb.trans h.base, ht.trans h.total, fun hsmall => ?_⟩
  obtain ⟨hbefore, hblock⟩ := h.blocks hsmall
  refine ⟨by rw [List.length_append, hbefore, hlen, hi], fun k m hm => ?_⟩
  have hm : IsBlockOf s po k m := by
    by_cases hk : k < l.length
    · rw [List.getElem?_append_left hk] at hm
      exact hblock k m hm
    · rw [List.getElem?_append_right (by omega)] at hm
      have hnew := hsubs _ m hm
      rwa [← hbefore, Nat.add_sub_cancel' (by omega)] at hnew
  exact ⟨hm.id, hm.size, hm.objectSize, by rw [hb]; exact hm.address⟩

section Steps

variable {page : Nat → List MemoryAccess} {c d : Cache}

theorem Ledger.congr (h : Ledger page c) (ha : d.activeSlots = c.activeSlots)
    (hp : d.pending = c.pending) : Ledger page d := by
  refine ⟨fun s hs => h.clean s (ha ▸ hs), fun s hs => ?_⟩
  rw [hp]
  exact h.opener s (ha ▸ hs)

/-- The pages with new sub-requests entered. -/
def enter (page : Nat → List MemoryAccess) (subs : List MemoryAccess) (s : Nat) : List MemoryAccess :=
  page s ++ subs.filter (·.id == s)

theorem enter_nil (page : Nat → List MemoryAccess) : enter page [] = page := by
  funext s
  exact List.append_nil _

theorem enter_append (page : Nat → List MemoryAccess) (l₁ l₂ : List MemoryAccess) :
    enter (enter page l₁) l₂ = enter page (l₁ ++ l₂) := by
  funext s
  simp [enter]

theorem enter_self {subs : List MemoryAccess} {slot : Nat} (hids : ∀ m ∈ subs, m.id = slot) :
    enter page subs slot = page slot ++ subs := by
  rw [enter, List.filter_eq_self.mpr fun m hm => by simp [hids m hm]]

theorem enter_other {subs : List MemoryAccess} {slot s : Nat} (hids : ∀ m ∈ subs, m.id = slot)
    (hs : s ≠ slot) : enter page subs s = page s := by
  have hnone : subs.filter (·.id == s) = [] :=
    List.filter_eq_nil_iff.mpr fun m hm => by simp [hids m hm, Ne.symm hs]
  rw [enter, hnone, List.append_nil]

/-- Issuing blocks enters them on the page of their slot. -/
theorem Ledger.issue (h : Ledger page c) {slot n : Nat} (hs : slot ∈ c.activeSlots)
    (hi : IssueSpec c d slot n) : ∃ subs, d.missQ = c.missQ ++ subs ∧ (∀ m ∈ subs, m.id = slot) ∧
      subs.length = n ∧ Ledger (enter page subs) d := by
  obtain ⟨subs, hq, hlen, hsubs⟩ := hi.missQ
  have hids : ∀ m ∈ subs, m.id = slot := by
    intro m hm
    obtain ⟨i, hi⟩ := List.mem_iff_getElem?.mp hm
    exact (hsubs i m hi).id
  have ha := hi.frame.2.1
  refine ⟨subs, hq, hids, hlen, fun s hsa => ?_, fun s hsa => ?_⟩
  · have hne : s ≠ slot := fun heq => hsa (by rw [ha, heq]; exact hs)
    rw [enter_other hids hne]
    exact h.clean s (ha ▸ hsa)
  · obtain ⟨r, hr⟩ := h.opener s (ha ▸ hsa)
    rw [hi.pending]
    by_cases hss : s = slot
    · subst hss
      rw [enter_self hids, Function.update_self]
      exact ⟨r, hr.append hlen hsubs rfl rfl rfl rfl⟩
    · rw [enter_other hids hss, Function.update_of_ne hss]
      exact ⟨r, hr⟩

/-- What has been appended to the miss queue since `c`, with the ledger kept. -/
def Booked (page : Nat → List MemoryAccess) (c d : Cache) : Prop :=
  ∃ subs, d.missQ = c.missQ ++ subs ∧ Ledger (enter page subs) d

theorem Ledger.booked (h : Ledger page c) : Booked page c c :=
  ⟨[], (List.append_nil _).symm, by rwa [enter_nil]⟩

/-- Bookings of consecutive pieces of a step add up. -/
theorem Booked.trans {e : Cache} (h : Booked page c d)
    (hnext : ∀ page, Ledger page d → Booked page d e) : Booked page c e := by
  obtain ⟨subs, hq, hd⟩ := h
  obtain ⟨subs', hq', he⟩ := hnext _ hd
  refine ⟨subs ++ subs', by rw [hq', hq, List.append_assoc], ?_⟩
  rwa [enter_append] at he

theorem Ledger.continueIssue (h : Ledger page c) {slot : Nat} (hs : slot ∈ c.activeSlots) :
    Booked page c (c.continueIssue slot) := by
  unfold Cache.continueIssue
  split
  · exact h.booked
  · split
    · obtain ⟨subs, hq, -, -, hd⟩ := h.issue hs (issueBlocks_spec c slot)
      exact ⟨subs, hq, hd⟩
    · exact h.booked

/-- A new object gets its first blocks. -/
theorem Ledger.open (h : Ledger page c) {slot : Nat} (req : MemoryAccess) {subs : List MemoryAccess}
    (hnew : slot ∉ c.activeSlots) (hids : ∀ m ∈ subs, m.id = slot)
    (ha : d.activeSlots = c.activeSlots ++ [slot])
    (hother : ∀ s, s ≠ slot → d.pending s = c.pending s)
    (hopener : Opener slot (d.pending slot) subs req) :
    Ledger (enter page subs) d := by
  refine ⟨fun s hs => ?_, fun s hs => ?_⟩
  · rw [ha, List.mem_append, List.mem_singleton, not_or] at hs
    rw [enter_other hids hs.2]
    exact h.clean s hs.1
  · rw [ha, List.mem_append, List.mem_singleton] at hs
    by_cases hss : s = slot
    · subst hss
      rw [enter_self hids, h.clean s hnew, List.nil_append]
      exact ⟨req, hopener⟩
    · rw [enter_other hids hss, hother s hss]
      exact h.opener s (hs.resolve_right hss)

theorem Ledger.processOneRequest (hwf : c.SlotsWF) (h : Ledger page c) :
    Booked page c c.processOneRequest.2 := by
  cases hq : c.inQ with
  | nil =>
    rw [processOneRequest_nil hq]
    exact h.booked
  | cons req rest =>
    cases processOneRequest_cases hwf hq with
    | hit _ eq =>
      rw [eq]
      refine ⟨[], by simp, ?_⟩
      rw [enter_nil]
      exact h.congr (by simp) (by simp)
    | coalesced _ slot find lt eq =>
      rw [eq]
      refine ⟨[], by simp, ?_⟩
      rw [enter_nil]
      refine ⟨h.clean, fun s hs => ?_⟩
      obtain ⟨r, hr⟩ := h.opener s hs
      by_cases hss : s = slot
      · subst hss
        refine ⟨r, hr.congr ?_ (by simp) (by simp) (by simp)⟩
        -- the request that opened the object stays the first one
        have hfirst := hr.first
        simp only [setPending_pending, Function.update_self]
        rw [List.head?_append, hfirst]
        rfl
      · exact ⟨r, hr.congr (by simp [hss]) (by simp [hss]) (by simp [hss]) (by simp [hss])⟩
    | full _ _ _ eq =>
      rw [eq]
      exact h.booked
    | burst _ find slot slots free large eq =>
      rw [eq]
      have hnew : slot ∉ c.activeSlots := fun hs => hwf.disjoint slot hs (by simp [free])
      obtain ⟨⟨-, ha, -⟩, hpend, m, hm, hid, -⟩ :=
        issueBurst_spec (c.openMiss slot slots req rest) slot req
      refine ⟨[m], hm, h.open req hnew (by simpa using hid) ha (fun s hss => ?_) ?_⟩
      · simp [hpend, openMiss_pending, hss]
      · refine ⟨?_, ?_, ?_, fun hsmall => absurd large (Nat.not_le_of_lt hsmall)⟩
        · simp [hpend, openMiss_pending, burstObject]
        · simp [hpend, openMiss_pending, burstObject]
        · simp [hpend, openMiss_pending, burstObject]
    | blocks _ find slot slots free small eq =>
      rw [eq]
      have hnew : slot ∉ c.activeSlots := fun hs => hwf.disjoint slot hs (by simp [free])
      obtain ⟨⟨-, ha, -⟩, hpend, subs, hsq, hlen, hsub⟩ :=
        issueFirst_spec (c.openMiss slot slots req rest) slot
      have hids : ∀ m ∈ subs, m.id = slot := by
        intro m hm
        obtain ⟨i, hi⟩ := List.mem_iff_getElem?.mp hm
        exact (hsub i m hi).id
      refine ⟨subs, hsq, h.open req hnew hids ha (fun s hss => ?_) ?_⟩
      · simp [hpend, openMiss_pending, hss]
      · refine ⟨?_, ?_, ?_, fun _ => ⟨?_, fun k m hm => ?_⟩⟩
        · simp [hpend, openMiss_pending]
        · simp [hpend, openMiss_pending]
        · simp [hpend, openMiss_pending]
        · simp [hpend, openMiss_pending, hlen]
        · have hblock := hsub k m hm
          have haddr := hblock.address
          refine ⟨hblock.id, hblock.size, hblock.objectSize, ?_⟩
          simpa [hpend, openMiss_pending] using haddr

theorem Ledger.cycle (hwf : c.SlotsWF) (h : Ledger page c) : Booked page c c.cycle := by
  have hcont : c.continueIssues.SlotsWF ∧ Booked page c c.continueIssues :=
    continueIssues_induction (P := fun d => d.SlotsWF ∧ Booked page c d) continueIssue_activeSlots
      (fun d s hs hd => ⟨hd.1.continueIssue hs, hd.2.trans fun _ hl => hl.continueIssue hs⟩)
      ⟨hwf, h.booked⟩
  have key : c.continueIssues.processRequests.SlotsWF ∧
      Booked page c c.continueIssues.processRequests :=
    processRequests_induction (P := fun d => d.SlotsWF ∧ Booked page c d)
      (fun d _ hd => ⟨hd.1.processOneRequest, hd.2.trans fun _ hl => hl.processOneRequest hd.1⟩) hcont
  exact key.2

/-! ## Responses -/

/-- What a counted response issues: as many blocks as there are left, and as fit. -/
theorem pushMemoryResponse_issues (hwf : c.SlotsWF) {resp : MemoryAccess}
    (hs : resp.id ∈ c.activeSlots) :
    ∃ subs, (c.pushMemoryResponse resp).missQ = c.missQ ++ subs ∧
      subs.length = min (MAX_MISS_Q_DEPTH - c.missQ.length)
        ((c.pending resp.id).totalBlocks - (c.pending resp.id).issuedBlocks) ∧
      ∀ i m, subs[i]? = some m →
        IsBlockOf resp.id (c.pending resp.id) ((c.pending resp.id).issuedBlocks + i) m := by
  rw [pushMemoryResponse_counted ((hwf.active _).mpr hs) (hwf.lt hs)]
  simp only [poolRelease_frame, complete_frame]
  generalize hd : (c.fill (blockBase resp.dramAddress) (c.pending resp.id).isWrite
    (c.pending resp.id).coreId).countReturn resp.id = d
  have hq : d.missQ = c.missQ := by simp [← hd, countReturn]
  have hp : d.pending resp.id = { c.pending resp.id with
      returnedBlocks := (c.pending resp.id).returnedBlocks + 1 } := by
    simp [← hd, countReturn]
  obtain ⟨hle, hlt⟩ := hwf.issued resp.id hs
  unfold reissue
  split
  · rename_i hmore
    rw [hp, hq] at hmore
    simp only [Bool.and_eq_true, decide_eq_true_eq] at hmore
    obtain ⟨subs, hsq, hlen, hsubs⟩ := (issueBlocks_spec d resp.id).missQ
    refine ⟨subs, by rw [hsq, hq], ?_, fun i m hm => ?_⟩
    · rw [hlen, toIssue, hq, hp]
      dsimp only
      rw [sub32_of_le hle hlt, sub32_of_le hmore.2.le (by unfold MAX_MISS_Q_DEPTH; decide)]
    · have hblock := hsubs i m hm
      have haddr := hblock.address
      rw [hp] at haddr
      exact ⟨hblock.id, hblock.size, hblock.objectSize, haddr⟩
  · rename_i hnone
    rw [hp, hq] at hnone
    simp only [Bool.and_eq_true, decide_eq_true_eq] at hnone
    refine ⟨[], by simp [hq], ?_, by simp⟩
    rw [List.length_nil]
    omega

/-- A page is clean as soon as its slot is free. -/
def wipe (page : Nat → List MemoryAccess) (c : Cache) (s : Nat) : List MemoryAccess :=
  if s ∈ c.activeSlots then page s else []

theorem Ledger.pushMemoryResponse (hwf : c.SlotsWF) (h : Ledger page c) (resp : MemoryAccess) :
    ∃ subs, (c.pushMemoryResponse resp).missQ = c.missQ ++ subs ∧
      Ledger (wipe (enter page subs) (c.pushMemoryResponse resp)) (c.pushMemoryResponse resp) := by
  cases hact : (c.pending resp.id).active with
  | false =>
    rw [pushMemoryResponse_ignored (.inl hact)]
    refine ⟨[], by simp, ?_⟩
    have hwipe : wipe (enter page []) (c.poolRelease resp.ptr) = page := by
      funext s
      rw [enter_nil, wipe, (poolRelease_frame c resp.ptr).2.2.1]
      split
      · rfl
      · rename_i hs
        exact (h.clean s hs).symm
    rw [hwipe]
    exact h.congr (by simp) (by simp)
  | true =>
    have hs := (hwf.active resp.id).mp hact
    obtain ⟨subs, hq, hlen, hsubs⟩ := pushMemoryResponse_issues hwf hs
    obtain ⟨subs', hq', hids, -, -, hother, hcase⟩ := pushMemoryResponse_cases hwf hs
    obtain rfl : subs' = subs := List.append_cancel_left (hq'.symm.trans hq)
    generalize c.pushMemoryResponse resp = d at *
    have hrest : ∀ s ∈ c.activeSlots, s ≠ resp.id →
        ∃ r, Opener s (d.pending s) (enter page subs' s) r := by
      intro s hsa hss
      obtain ⟨i, hi⟩ := hother s hss
      rw [enter_other hids hss, hi]
      obtain ⟨r, hr⟩ := h.opener s hsa
      exact ⟨r, hr.congr rfl rfl rfl rfl⟩
    refine ⟨subs', hq, fun s hsd => if_neg hsd, fun s hsd => ?_⟩
    rw [wipe, if_pos hsd]
    cases hcase with
    | kept active object _ _ =>
      rw [active] at hsd
      by_cases hss : s = resp.id
      · subst hss
        obtain ⟨r, hr⟩ := h.opener resp.id hsd
        rw [enter_self hids, object]
        exact ⟨r, hr.append rfl hsubs rfl rfl rfl rfl⟩
      · exact hrest s hsd hss
    | released active _ _ =>
      obtain ⟨hsa, hss⟩ := (active s).mp hsd
      exact hrest s hsa hss

/-! ## The ledger of a run -/

theorem Ledger.wipe_eq (h : Ledger page c) : wipe page c = page := by
  funext s
  unfold wipe
  split
  · rfl
  · rename_i hs
    exact (h.clean s hs).symm

theorem ledger_step (h : List (Cache × Op)) (c : Cache) (op : Op) :
    ledger (h ++ [(c, op)]) = enter (wipe (ledger h) c) (emitted c op) :=
  funext fun s => ledger_snoc h c op s

theorem Ledger.step (hwf : c.SlotsWF) {h : List (Cache × Op)} (hl : Ledger (wipe (ledger h) c) c)
    (op : Op) : Ledger (wipe (ledger (h ++ [(c, op)])) (c.step op)) (c.step op) := by
  rw [ledger_step]
  -- an entry point that issues nothing and leaves the objects alone
  have hquiet : ∀ d : Cache, emitted c op = [] → c.step op = d → d.activeSlots = c.activeSlots →
      d.pending = c.pending →
      Ledger (wipe (enter (wipe (ledger h) c) (emitted c op)) (c.step op)) (c.step op) := by
    intro d hnone hstep ha hp
    have hd : Ledger (wipe (ledger h) c) d := hl.congr ha hp
    rw [hnone, enter_nil, hstep, hd.wipe_eq]
    exact hd
  cases op with
  | pushRequest req => exact hquiet _ (by simp [emitted, Cache.step, pushRequest]) rfl rfl rfl
  | popMissRequest => exact hquiet _ (by simp [emitted, Cache.step, popMissRequest]) rfl rfl rfl
  | popWbRequest => exact hquiet _ (by simp [emitted, Cache.step, popWbRequest]) rfl rfl rfl
  | popResponse => exact hquiet _ (by simp [emitted, Cache.step, popResponse]) rfl rfl rfl
  | cycle =>
    obtain ⟨subs, hq, hd⟩ := hl.cycle hwf
    rw [emitted_of_append .cycle hq]
    show Ledger (wipe _ c.cycle) c.cycle
    rwa [hd.wipe_eq]
  | pushMemoryResponse resp =>
    obtain ⟨subs, hq, hd⟩ := hl.pushMemoryResponse hwf resp
    rw [emitted_of_append (.pushMemoryResponse resp) hq]
    exact hd

end Steps

theorem Run.booked {h : List (Cache × Op)} {c : Cache} (run : Run h c) :
    Ledger (wipe (ledger h) c) c := by
  induction run with
  | nil => exact ⟨fun s hs => if_neg hs, fun s hs => absurd hs List.not_mem_nil⟩
  | snoc before step ih =>
    obtain rfl := step
    exact ih.step (Run.slotsWF before) _

/-! ## Whole objects -/

/-- The sub-requests are for distinct aligned blocks. -/
structure Once (l : List MemoryAccess) : Prop where
  distinct : (l.map (·.dramAddress)).Nodup
  aligned : ∀ m ∈ l, m.dramAddress.toNat % BLOCK_SIZE = 0

/-- Every byte of the object that `r` asks for is in one of the sub-requests. -/
def Covers (l : List MemoryAccess) (r : MemoryAccess) : Prop :=
  ∀ x ∈ Spans.Span r.dramAddress r.objectSize, ∃ m ∈ l, x ∈ Spans.Span m.dramAddress m.size

theorem nBlocks_of_small {size : Nat} (h : size < LARGE_OBJ_THRESHOLD) :
    nBlocks size = (size + 127) / 128 := by
  unfold nBlocks BLOCK_SIZE
  unfold LARGE_OBJ_THRESHOLD at h
  omega

section Blocks

variable {s : Nat} {po : PendingObject} {l : List MemoryAccess} {r : MemoryAccess}

theorem BlocksOf.once (h : BlocksOf s po l) (hb : po.baseAddr = blockBase r.dramAddress)
    (hfit : po.issuedBlocks * BLOCK_SIZE ≤ 2 ^ 64) : Once l := by
  have hlen := h.length
  have haddr : ∀ k, (hk : k < l.length) → l[k].dramAddress =
      blockBase r.dramAddress + BitVec.ofNat 64 (k * BLOCK_SIZE) := by
    intro k hk
    rw [← hb]
    exact (h.block k l[k] (List.getElem?_eq_getElem hk)).address
  refine ⟨?_, fun m hm => ?_⟩
  · rw [List.Nodup, List.pairwise_map, List.pairwise_iff_getElem]
    intro i j hi hj hij heq
    rw [haddr i hi, haddr j hj] at heq
    unfold BLOCK_SIZE at heq hfit
    have := Spans.add_ofNat_inj (by omega) (by omega) heq
    omega
  · obtain ⟨k, hk, rfl⟩ := List.getElem_of_mem hm
    rw [haddr k hk, BitVec.toNat_add, blockBase_toNat, BitVec.toNat_ofNat]
    unfold BLOCK_SIZE
    omega

theorem BlocksOf.covers_iff (h : BlocksOf s po l) (hb : po.baseAddr = blockBase r.dramAddress)
    (hsize : r.objectSize < LARGE_OBJ_THRESHOLD) (hfit : po.issuedBlocks * BLOCK_SIZE ≤ 2 ^ 64) :
    Covers l r ↔ r.objectSize = 0 ∨
      r.dramAddress.toNat % BLOCK_SIZE + r.objectSize ≤ po.issuedBlocks * BLOCK_SIZE := by
  have hstart : r.dramAddress = blockBase r.dramAddress +
      BitVec.ofNat 64 (r.dramAddress.toNat % BLOCK_SIZE) := by
    apply BitVec.eq_of_toNat_eq
    rw [BitVec.toNat_add, blockBase_toNat, BitVec.toNat_ofNat]
    unfold BLOCK_SIZE
    omega
  have hrange : r.dramAddress.toNat % BLOCK_SIZE + r.objectSize ≤ 2 ^ 64 := by
    unfold LARGE_OBJ_THRESHOLD at hsize
    unfold BLOCK_SIZE
    omega
  have hcovered := Spans.covered_iff (blockBase r.dramAddress) (by decide) hrange hfit
  rw [← hcovered, ← hstart]
  refine forall₂_congr fun x _ => ⟨?_, ?_⟩
  · rintro ⟨m, hm, hx⟩
    obtain ⟨k, hk, rfl⟩ := List.getElem_of_mem hm
    have hblock := h.block k l[k] (List.getElem?_eq_getElem hk)
    rw [hblock.size, hblock.address, hb] at hx
    exact ⟨k, h.length ▸ hk, hx⟩
  · rintro ⟨k, hk, hx⟩
    have hlt : k < l.length := h.length.symm ▸ hk
    have hblock := h.block k l[k] (List.getElem?_eq_getElem hlt)
    refine ⟨l[k], List.getElem_mem hlt, ?_⟩
    rw [hblock.size, hblock.address, hb]
    exact hx

end Blocks

/-! ## Released objects -/

/-- The step releases the object in slot `s`. -/
def Released (c : Cache) (op : Op) (s : Nat) : Prop :=
  s ∈ c.activeSlots ∧ s ∉ (c.step op).activeSlots

/-- The step is the response that the object in slot `s` counts as its last. -/
def Completes (c : Cache) : Op → Nat → Prop
  | .pushMemoryResponse resp, s => resp.id = s ∧ s ∈ c.activeSlots ∧
    (c.pending s).totalBlocks ≤ (c.pending s).returnedBlocks + 1
  | _, _ => False

theorem released_iff {c : Cache} (hwf : c.SlotsWF) (op : Op) (s : Nat) :
    Released c op s ↔ Completes c op s := by
  cases op with
  | pushRequest req => exact iff_of_false (fun h => h.2 h.1) id
  | popMissRequest => exact iff_of_false (fun h => h.2 h.1) id
  | popWbRequest => exact iff_of_false (fun h => h.2 h.1) id
  | popResponse => exact iff_of_false (fun h => h.2 h.1) id
  | cycle => exact iff_of_false (fun h => h.2 (Bank.cycle_active hwf h.1)) id
  | pushMemoryResponse resp =>
    constructor
    · rintro ⟨hs, hgone⟩
      cases hact : (c.pending resp.id).active with
      | false =>
        refine absurd ?_ hgone
        show s ∈ (c.pushMemoryResponse resp).activeSlots
        rw [pushMemoryResponse_ignored (.inl hact), (poolRelease_frame c resp.ptr).2.2.1]
        exact hs
      | true =>
        obtain ⟨_, -, -, -, -, -, hcase⟩ :=
          pushMemoryResponse_cases hwf ((hwf.active resp.id).mp hact)
        cases hcase with
        | kept active =>
          refine absurd ?_ hgone
          show s ∈ (c.pushMemoryResponse resp).activeSlots
          rwa [active]
        | released active _ finished =>
          have heq : s = resp.id := by
            by_contra hne
            exact hgone ((active s).mpr ⟨hs, hne⟩)
          exact ⟨heq.symm, hs, heq ▸ finished⟩
    · rintro ⟨rfl, hs, hlast⟩
      refine ⟨hs, ?_⟩
      obtain ⟨_, -, -, -, -, -, hcase⟩ := pushMemoryResponse_cases hwf hs
      cases hcase with
      | kept _ _ _ unfinished => omega
      | released active => exact fun hmem => ((active _).mp hmem).2 rfl

/-- An object below the threshold that the step releases has been asked for once and as a whole. -/
def ReleasedWhole (h : List (Cache × Op)) (c : Cache) (op : Op) : Prop :=
  ∀ s, Released c op s → ∀ r, (c.pending s).waitingReqs.head? = some r →
    r.objectSize < LARGE_OBJ_THRESHOLD →
    Once (ledger (h ++ [(c, op)]) s) ∧ Covers (ledger (h ++ [(c, op)]) s) r

/-- When the last response of an object below the threshold is counted, the object ends within the
blocks that its size asks for, and those not issued yet fit into the miss queue. -/
def ReleaseOk (c : Cache) (op : Op) : Prop :=
  ∀ s, Completes c op s → ∀ r, (c.pending s).waitingReqs.head? = some r →
    r.objectSize < LARGE_OBJ_THRESHOLD → 0 < r.objectSize →
    r.dramAddress.toNat % BLOCK_SIZE + r.objectSize ≤ nBlocks r.objectSize * BLOCK_SIZE ∧
      nBlocks r.objectSize - (c.pending s).issuedBlocks ≤ MAX_MISS_Q_DEPTH - c.missQ.length

/-- What was issued for an object by the time it is released. -/
theorem Ledger.released {h : List (Cache × Op)} {c : Cache} (hwf : c.SlotsWF)
    (hl : Ledger (wipe (ledger h) c) c) {op : Op} {s : Nat} (hlast : Completes c op s) {r : MemoryAccess}
    (hr : (c.pending s).waitingReqs.head? = some r) (hsmall : r.objectSize < LARGE_OBJ_THRESHOLD) :
    ∃ po, BlocksOf s po (ledger (h ++ [(c, op)]) s) ∧ po.baseAddr = blockBase r.dramAddress ∧
      po.issuedBlocks = (c.pending s).issuedBlocks + min (MAX_MISS_Q_DEPTH - c.missQ.length)
        (nBlocks r.objectSize - (c.pending s).issuedBlocks) := by
  cases op with
  | pushMemoryResponse resp =>
    obtain ⟨rfl, hs, -⟩ := hlast
    obtain ⟨r', hopener⟩ := hl.opener resp.id hs
    obtain rfl : r' = r := Option.some.inj (hopener.first.symm.trans hr)
    obtain ⟨subs, hq, hlen, hsubs⟩ := pushMemoryResponse_issues hwf hs
    have hids : ∀ m ∈ subs, m.id = resp.id := by
      intro m hm
      obtain ⟨i, hi⟩ := List.mem_iff_getElem?.mp hm
      exact (hsubs i m hi).id
    let po : PendingObject := { c.pending resp.id with
      issuedBlocks := (c.pending resp.id).issuedBlocks + subs.length }
    have hafter : Opener resp.id po _ r' := hopener.append rfl hsubs rfl rfl rfl rfl
    refine ⟨po, ?_, hopener.base, ?_⟩
    · rw [ledger_step, emitted_of_append (.pushMemoryResponse resp) hq, enter_self hids]
      exact hafter.blocks hsmall
    · rw [← hopener.total, ← hlen]
  | pushRequest | cycle | popMissRequest | popWbRequest | popResponse => exact hlast.elim

theorem releasedWhole_iff {h : List (Cache × Op)} {c : Cache} (run : Run h c) (op : Op) :
    ReleasedWhole h c op ↔ ReleaseOk c op := by
  have hwf := run.slotsWF
  have hone : ∀ s, Completes c op s → ∀ r, (c.pending s).waitingReqs.head? = some r →
      r.objectSize < LARGE_OBJ_THRESHOLD →
      (Once (ledger (h ++ [(c, op)]) s) ∧ Covers (ledger (h ++ [(c, op)]) s) r ↔
        (0 < r.objectSize →
          r.dramAddress.toNat % BLOCK_SIZE + r.objectSize ≤ nBlocks r.objectSize * BLOCK_SIZE ∧
          nBlocks r.objectSize - (c.pending s).issuedBlocks ≤ MAX_MISS_Q_DEPTH - c.missQ.length)) := by
    intro s hlast r hr hsmall
    obtain ⟨hs, -⟩ := (released_iff hwf op s).mpr hlast
    obtain ⟨po, hblocks, hbase, hissued⟩ := run.booked.released hwf hlast hr hsmall
    obtain ⟨r', hopener⟩ := run.booked.opener s hs
    obtain rfl : r' = r := Option.some.inj (hopener.first.symm.trans hr)
    have hle := (hwf.issued s hs).1
    rw [hopener.total] at hle
    have hn := nBlocks_of_small hsmall
    have hfit : po.issuedBlocks * BLOCK_SIZE ≤ 2 ^ 64 := by
      unfold LARGE_OBJ_THRESHOLD at hsmall
      unfold BLOCK_SIZE
      omega
    rw [and_iff_right (hblocks.once hbase hfit), hblocks.covers_iff hbase hsmall hfit, hissued, hn]
    unfold BLOCK_SIZE
    omega
  constructor
  · intro hall s hlast r hr hsmall
    exact (hone s hlast r hr hsmall).mp (hall s ((released_iff hwf op s).mpr hlast) r hr hsmall)
  · intro hall s hrel r hr hsmall
    have hlast := (released_iff hwf op s).mp hrel
    exact (hone s hlast r hr hsmall).mpr (hall s hlast r hr hsmall)

/-- In every state of a run the sub-requests of a pending object below the threshold are for distinct
aligned blocks. The objects that the run releases are covered by theirs exactly when each of them ends
within the blocks its size asks for, and these are all issued when its last response comes. -/
theorem Run.coverage_iff {h : List (Cache × Op)} {c : Cache} (run : Run h c) :
    (∀ s ∈ c.activeSlots, ∀ r, (c.pending s).waitingReqs.head? = some r →
      r.objectSize < LARGE_OBJ_THRESHOLD → Once (ledger h s)) ∧
    ((∀ h₁ d op h₂, h = h₁ ++ (d, op) :: h₂ → ReleasedWhole h₁ d op) ↔
      Machine.EachStep ReleaseOk h) := by
  refine ⟨fun s hs r hr hsmall => ?_, fun hall p hp => ?_, fun hall h₁ d op h₂ heq => ?_⟩
  · obtain ⟨r', hopener⟩ := run.booked.opener s hs
    obtain rfl : r' = r := Option.some.inj (hopener.first.symm.trans hr)
    have hle := (run.slotsWF.issued s hs).1
    rw [hopener.total, nBlocks_of_small hsmall] at hle
    have hblocks := hopener.blocks hsmall
    rw [wipe, if_pos hs] at hblocks
    refine hblocks.once hopener.base ?_
    unfold LARGE_OBJ_THRESHOLD at hsmall
    unfold BLOCK_SIZE
    omega
  · obtain ⟨h₁, h₂, rfl⟩ := List.append_of_mem hp
    obtain ⟨before, -⟩ := Machine.Run.split (a := p.2) run
    exact (releasedWhole_iff before p.2).mp (hall h₁ p.1 p.2 h₂ rfl)
  · subst heq
    obtain ⟨before, -⟩ := Machine.Run.split run
    exact (releasedWhole_iff before op).mpr (hall (d, op) (by simp))

/-! ## An object across two blocks -/

/-- A read of 128 bytes from the middle of a block. -/
def readAcross : MemoryAccess :=
  { ptr := .heap 0, id := 1, dramAddress := 64, size := 128, objectSize := 128, write := false,
    request := true, coreId := 0, bufferId := 0 }

/-- A read of the same size from the start of a block. -/
def readWhole : MemoryAccess := { readAcross with dramAddress := 0 }

/-- A bank fetches one block for the read and gets it. -/
theorem fetch_completes (req : MemoryAccess) (hone : nBlocks req.objectSize = 1)
    (hsmall : req.objectSize < LARGE_OBJ_THRESHOLD) :
    ∃ h c op, Run h c ∧ Completes c op 0 ∧ (c.pending 0).waitingReqs.head? = some req := by
  have hidle : init.Idle := ⟨rfl, rfl, rfl, by simp only [init]⟩
  obtain ⟨subs, hf⟩ := cycle_fetch slotsWF_init hidle hsmall (init_not_resident req.dramAddress)
  obtain ⟨m, rfl⟩ := List.length_eq_one_iff.mp (hf.length.trans hone)
  have run : Run _ _ := Machine.Run.of_foldl step init [.pushRequest req, .cycle, .popMissRequest]
  simp only [List.foldl_cons, List.foldl_nil, step] at run
  generalize (init.pushRequest req).cycle = d at hf run
  refine ⟨_, _, .pushMemoryResponse m, run, ⟨(hf.blocks 0 m rfl).1, ?_, ?_⟩, ?_⟩
  · show 0 ∈ d.activeSlots
    simp [hf.active]
  · show (d.pending 0).totalBlocks ≤ (d.pending 0).returnedBlocks + 1
    rw [hf.object.1, hf.object.2.2.1, hone]
  · show (d.pending 0).waitingReqs.head? = some req
    rw [hf.object.2.2.2.2.2]
    rfl

/-- The second half of the read is never asked for. -/
theorem readAcross_not_covered : ¬ ∀ h c, Run h c →
    ∀ h₁ d op h₂, h = h₁ ++ (d, op) :: h₂ → ReleasedWhole h₁ d op := by
  intro hall
  obtain ⟨h, c, op, run, hlast, hfirst⟩ := fetch_completes readAcross (by decide) (by decide)
  have hwhole := hall _ _ (run.snoc (a := op) rfl) h c op [] rfl
  have hok := (releasedWhole_iff run op).mp hwhole 0 hlast readAcross hfirst (by decide) (by decide)
  exact absurd hok.1 (by decide)

/-- A run that fetches a whole block. -/
theorem coverage_iff_readWhole : ∃ h c, Run h c ∧
    ((∀ h₁ d op h₂, h = h₁ ++ (d, op) :: h₂ → ReleasedWhole h₁ d op) ↔
      Machine.EachStep ReleaseOk h) := by
  obtain ⟨h, c, op, run, -⟩ := fetch_completes readWhole (by decide) (by decide)
  exact ⟨_, _, run.snoc (a := op) rfl, (Run.coverage_iff (run.snoc (a := op) rfl)).2⟩

end Cache

end OnnxSim
