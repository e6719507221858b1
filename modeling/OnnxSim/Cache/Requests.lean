import OnnxSim.Cache.Counts

/-!
# Where the requests are

A request pushed into a bank is in the input queue, in the waiting list of one active slot, in the
output queue, or popped (`Located`), at every moment of every run. When the queues are empty and
memory owes no block, the requests that still wait are exactly those of objects on the large-object
path and of objects with blocks that were never issued; a cycle leaves no object of the second kind
behind without filling the miss queue.
-/

namespace OnnxSim

namespace Cache

/-- The requests waiting on the active slots. -/
def waiting (c : Cache) : List MemoryAccess :=
  c.activeSlots.flatMap fun s => (c.pending s).waitingReqs

/-- The requests the bank holds, those not yet answered marked as they will be. -/
def held (c : Cache) : List MemoryAccess :=
  (c.inQ ++ c.waiting).map MemoryAccess.answered ++ c.outQ

theorem waiting_congr {c d : Cache} (ha : d.activeSlots = c.activeSlots)
    (hw : ∀ s ∈ c.activeSlots, (d.pending s).waitingReqs = (c.pending s).waitingReqs) :
    d.waiting = c.waiting := by
  unfold waiting
  rw [ha]
  exact List.flatMap_congr hw

/-- One more request waits on an active slot. -/
theorem waiting_append {c d : Cache} (h : c.SlotsWF) {slot : Nat} {req : MemoryAccess}
    (hs : slot ∈ c.activeSlots) (ha : d.activeSlots = c.activeSlots)
    (hslot : (d.pending slot).waitingReqs = (c.pending slot).waitingReqs ++ [req])
    (hother : ∀ s, s ≠ slot → (d.pending s).waitingReqs = (c.pending s).waitingReqs) :
    d.waiting.Perm (req :: c.waiting) := by
  obtain ⟨l, r, hl⟩ := List.append_of_mem hs
  have hnodup := h.nodup
  rw [hl] at hnodup
  obtain ⟨-, hr, hdisj⟩ := List.nodup_append.mp hnodup
  have hleft : ∀ s ∈ l, s ≠ slot := fun s hsl heq => hdisj s hsl slot (by simp) heq
  have hright : ∀ s ∈ r, s ≠ slot := fun s hsr heq => (List.nodup_cons.mp hr).1 (heq ▸ hsr)
  have hlmap : (l.flatMap fun s => (d.pending s).waitingReqs) =
      l.flatMap fun s => (c.pending s).waitingReqs :=
    List.flatMap_congr fun s hsl => hother s (hleft s hsl)
  have hrmap : (r.flatMap fun s => (d.pending s).waitingReqs) =
      r.flatMap fun s => (c.pending s).waitingReqs :=
    List.flatMap_congr fun s hsr => hother s (hright s hsr)
  unfold waiting
  rw [ha, hl]
  simp only [List.flatMap_append, List.flatMap_cons, hlmap, hrmap, hslot]
  generalize (l.flatMap fun s => (c.pending s).waitingReqs) = xs
  generalize (r.flatMap fun s => (c.pending s).waitingReqs) = ys
  generalize (c.pending slot).waitingReqs = ws
  have hmid : (xs ++ (ws ++ [req] ++ ys)) = (xs ++ ws) ++ req :: ys := by simp
  rw [hmid]
  exact List.perm_middle.trans (by simp)

theorem held_hit {c : Cache} {req : MemoryAccess} {rest : List MemoryAccess}
    (hq : c.inQ = req :: rest) : (({ c with inQ := rest } : Cache).answerHit req).held.Perm c.held := by
  have hw : (({ c with inQ := rest } : Cache).answerHit req).waiting = c.waiting := rfl
  unfold held
  rw [hw]
  simp only [answerHit_frame, hq, List.cons_append, List.map_cons, ← List.append_assoc]
  exact List.perm_append_singleton _ _

/-- Every call of `process_one_request` keeps the requests. -/
theorem processOneRequest_held {c : Cache} (h : c.SlotsWF) :
    c.processOneRequest.2.held.Perm c.held := by
  cases hq : c.inQ with
  | nil => rw [processOneRequest_nil hq]
  | cons req rest =>
    -- the request moves from the input queue to a waiting list
    have hmove : ∀ d : Cache, d.inQ = rest → d.outQ = c.outQ → d.waiting.Perm (req :: c.waiting) →
        d.held.Perm c.held := by
      intro d hi ho hw
      unfold held
      rw [hi, ho, hq]
      refine List.Perm.append_right _ (List.Perm.map _ ?_)
      exact (hw.append_left rest).trans List.perm_middle
    have hnew : ∀ {slot : Nat} {slots : List Nat}, c.freeSlots = slot :: slots → ∀ d : Cache,
        d.activeSlots = c.activeSlots ++ [slot] → (d.pending slot).waitingReqs = [req] →
        (∀ s, s ≠ slot → (d.pending s).waitingReqs = (c.pending s).waitingReqs) →
        d.waiting.Perm (req :: c.waiting) := by
      intro slot slots free d ha hslot hother
      have hdisj : ∀ s ∈ c.activeSlots, s ≠ slot :=
        fun s hs heq => h.disjoint s hs (by simp [free, heq])
      have hmap : (c.activeSlots.flatMap fun s => (d.pending s).waitingReqs) = c.waiting :=
        List.flatMap_congr fun s hs => hother s (hdisj s hs)
      unfold waiting
      rw [ha, List.flatMap_append, hmap]
      simp only [List.flatMap_cons, List.flatMap_nil, List.append_nil, hslot]
      exact List.perm_append_singleton _ _
    cases processOneRequest_cases h hq with
    | hit _ eq =>
      rw [eq]
      exact held_hit hq
    | coalesced _ slot find lt eq =>
      rw [eq]
      obtain ⟨-, hs, -⟩ | ⟨hnot, -⟩ := h.findPendingSlot req.id
      · rw [find] at hs
        refine hmove _ rfl rfl (waiting_append h hs rfl (by simp) fun s hss => ?_)
        simp [hss]
      · exact absurd (find ▸ lt) hnot
    | full _ _ _ eq => rw [eq]
    | burst _ _ slot slots free _ eq =>
      rw [eq]
      obtain ⟨⟨-, ha, -, hi, -, ho, -⟩, hpend, -⟩ :=
        issueBurst_spec (c.openMiss slot slots req rest) slot req
      refine hmove _ hi ho (hnew free _ (ha.trans rfl) ?_ fun s hss => ?_)
      · simp [hpend, burstObject, openMiss_pending]
      · simp [hpend, openMiss_pending, hss]
    | blocks _ _ slot slots free _ eq =>
      rw [eq]
      obtain ⟨⟨-, ha, -, hi, -, ho, -⟩, hpend, -⟩ :=
        issueFirst_spec (c.openMiss slot slots req rest) slot
      refine hmove _ hi ho (hnew free _ (ha.trans rfl) ?_ fun s hss => ?_)
      · simp [hpend, openMiss_pending]
      · simp [hpend, openMiss_pending, hss]

theorem issueBlocks_held (c : Cache) (slot : Nat) : (c.issueBlocks slot).held = c.held := by
  obtain ⟨⟨-, ha, -, hi, -, ho, -⟩, hpend, -⟩ := issueBlocks_spec c slot
  have hw : (c.issueBlocks slot).waiting = c.waiting := by
    refine waiting_congr ha fun s _ => ?_
    by_cases hss : s = slot
    · subst hss
      simp [hpend]
    · simp [hpend, hss]
  rw [held, held, hi, ho, hw]

theorem cycle_held {c : Cache} (h : c.SlotsWF) : c.cycle.held.Perm c.held := by
  have hcont : c.continueIssues.held = c.held := by
    refine continueIssues_induction (P := fun d => d.held = c.held) continueIssue_activeSlots
      (fun d s _ hd => ?_) rfl
    unfold continueIssue
    split
    · exact hd
    · split
      · rw [issueBlocks_held, hd]
      · exact hd
  have key : c.continueIssues.processRequests.SlotsWF ∧
      c.continueIssues.processRequests.held.Perm c.held :=
    processRequests_induction (P := fun d => d.SlotsWF ∧ d.held.Perm c.held)
      (fun d _ hd => ⟨hd.1.processOneRequest, (processOneRequest_held hd.1).trans hd.2⟩)
      ⟨h.continueIssues, by rw [hcont]⟩
  exact key.2

/-- A response moves the requests of the object it completes to the output queue. -/
theorem pushMemoryResponse_held {c : Cache} (h : c.SlotsWF) (resp : MemoryAccess) :
    (c.pushMemoryResponse resp).held.Perm c.held := by
  cases ha : (c.pending resp.id).active with
  | false =>
    rw [pushMemoryResponse_ignored (.inl ha)]
    have hw : (c.poolRelease resp.ptr).waiting = c.waiting :=
      waiting_congr (by simp) fun s _ => by simp
    simp [held, hw]
  | true =>
    have hs := (h.active resp.id).mp ha
    have hd := h.pushMemoryResponse resp
    obtain ⟨subs, -, -, -, hi, hother, hcase⟩ := pushMemoryResponse_cases h hs
    generalize c.pushMemoryResponse resp = d at *
    cases hcase with
    | kept active object outQ _ =>
      have hw : d.waiting = c.waiting := by
        refine waiting_congr active fun s _ => ?_
        by_cases hss : s = resp.id
        · subst hss
          rw [object]
        · obtain ⟨i, hi'⟩ := hother s hss
          rw [hi']
      rw [held, held, hi, outQ, hw]
    | released active outQ _ =>
      have hperm : c.activeSlots.Perm (resp.id :: d.activeSlots) := by
        refine (List.perm_ext_iff_of_nodup h.nodup ?_).mpr fun x => ?_
        · exact List.nodup_cons.mpr ⟨fun hc => ((active _).mp hc).2 rfl, hd.nodup⟩
        · rw [List.mem_cons, active]
          by_cases hx : x = resp.id
          · simp [hx, hs]
          · simp [hx]
      have hw : c.waiting.Perm ((c.pending resp.id).waitingReqs ++ d.waiting) := by
        have hmap : d.waiting = d.activeSlots.flatMap fun s => (c.pending s).waitingReqs := by
          refine List.flatMap_congr fun s hsd => ?_
          obtain ⟨i, hi'⟩ := hother s ((active s).mp hsd).2
          rw [hi']
        rw [hmap]
        exact hperm.flatMap_right _
      unfold held
      rw [hi, outQ]
      have hall := (hw.append_left c.inQ).map MemoryAccess.answered
      refine List.Perm.trans ?_ (hall.symm.append_right c.outQ)
      generalize (c.pending resp.id).waitingReqs = ws
      simp only [List.map_append, List.append_assoc]
      refine List.Perm.append_left _ ?_
      rw [← List.append_assoc]
      exact List.perm_append_comm

/-! ## What the pending objects still wait for -/

/-- The object of an active slot: its size is that of the request that opened it, and off the
large-object path every issued block has been counted or is on its way. -/
structure ObjectOk (c : Cache) (mem : List MemoryAccess) (s : Nat) : Prop where
  first : ∃ r rest, (c.pending s).waitingReqs = r :: rest ∧ (c.pending s).objSize = r.objectSize
  total : (c.pending s).totalBlocks = nBlocks (c.pending s).objSize
  burst : (c.pending s).isBurstMode = true ↔ LARGE_OBJ_THRESHOLD ≤ (c.pending s).objSize
  issued : (c.pending s).isBurstMode = false →
    (c.pending s).issuedBlocks ≤ (c.pending s).returnedBlocks + c.owed mem s

def ObjectsOk (c : Cache) (mem : List MemoryAccess) : Prop := ∀ s ∈ c.activeSlots, c.ObjectOk mem s

theorem ObjectOk.congr {c d : Cache} {mem mem' : List MemoryAccess} {s : Nat}
    (h : c.ObjectOk mem s) (hp : SameObject c d s) (ho : c.owed mem s ≤ d.owed mem' s) :
    d.ObjectOk mem' s := by
  obtain ⟨i, hi⟩ := hp
  obtain ⟨hfirst, htotal, hburst, hissued⟩ := h
  constructor <;> rw [hi]
  · exact hfirst
  · exact htotal
  · exact hburst
  · intro hb
    have := hissued hb
    simp only
    omega

theorem SameObject.of_eq {c d : Cache} {s : Nat} (h : d.pending s = c.pending s) :
    SameObject c d s := ⟨(c.pending s).activeSlotsIdx, by rw [h]⟩

theorem owed_le_append {c d : Cache} {mem subs : List MemoryAccess}
    (hq : d.missQ = c.missQ ++ subs) (s : Nat) : c.owed mem s ≤ d.owed mem s := by
  rw [owed_append hq]
  exact Nat.le_add_right _ _

theorem ObjectsOk.issueBlocks {c : Cache} {mem : List MemoryAccess} (h : c.ObjectsOk mem)
    {slot : Nat} : (c.issueBlocks slot).ObjectsOk mem := by
  have hi := issueBlocks_spec c slot
  obtain ⟨subs, hq, hlen, hsubs⟩ := hi.subs
  intro s hs
  rw [hi.frame.2.1] at hs
  by_cases hss : s = slot
  · subst hss
    obtain ⟨hfirst, htotal, hburst, hissued⟩ := h s hs
    have hids : ∀ m ∈ subs, m.id = s := fun m hm => (hsubs m hm).choose_spec.2.id
    constructor <;> simp only [hi.pending, Function.update_self]
    · exact hfirst
    · exact htotal
    · exact hburst
    · intro hb
      have := hissued hb
      rw [owed_append hq, countP_self hids, hlen]
      omega
  · refine (h s hs).congr (.of_eq ?_) (owed_le_append hq s)
    rw [hi.pending, Function.update_of_ne hss]

theorem ObjectsOk.continueIssues {c : Cache} {mem : List MemoryAccess} (h : c.ObjectsOk mem) :
    c.continueIssues.ObjectsOk mem := by
  refine continueIssues_induction (P := fun d => d.ObjectsOk mem) continueIssue_activeSlots
    (fun d s hs hd => ?_) h
  unfold continueIssue
  split
  · exact hd
  · split
    · exact hd.issueBlocks
    · exact hd

theorem ObjectsOk.processOneRequest {c : Cache} {mem : List MemoryAccess} (hw : c.SlotsWF)
    (h : c.ObjectsOk mem) : c.processOneRequest.2.ObjectsOk mem := by
  cases hq : c.inQ with
  | nil =>
    rw [processOneRequest_nil hq]
    exact h
  | cons req rest =>
    have hdisj : ∀ {slot slots}, c.freeSlots = slot :: slots → ∀ s ∈ c.activeSlots, s ≠ slot :=
      fun free s hs heq => hw.disjoint s hs (by simp [free, heq])
    cases processOneRequest_cases hw hq with
    | hit _ eq =>
      rw [eq]
      exact fun s hs => (h s hs).congr (.of_eq rfl) (le_refl _)
    | coalesced _ slot _ _ eq =>
      rw [eq]
      intro s hs
      by_cases hss : s = slot
      · subst hss
        obtain ⟨⟨r, rs, hr, hsize⟩, htotal, hburst, hissued⟩ := h s hs
        constructor <;> simp only [setPending_pending, Function.update_self]
        · exact ⟨r, rs ++ [req], by rw [hr]; rfl, hsize⟩
        · exact htotal
        · exact hburst
        · exact hissued
      · exact (h s hs).congr (.of_eq (by simp [hss])) (le_refl _)
    | full _ _ _ eq =>
      rw [eq]
      exact h
    | burst _ _ slot slots free large eq =>
      rw [eq]
      obtain ⟨⟨-, ha, -⟩, hpend, m, hm, -⟩ :=
        issueBurst_spec (c.openMiss slot slots req rest) slot req
      intro s hs
      rw [ha] at hs
      rcases List.mem_append.mp hs with hs | hs
      · have hss := hdisj free s hs
        refine (h s hs).congr (.of_eq ?_) (owed_le_append (hm : _ = _ ++ [m]) s)
        simp [hpend, openMiss_pending, hss]
      · obtain rfl := List.mem_singleton.mp hs
        constructor <;> simp [hpend, openMiss_pending, burstObject, large]
    | blocks _ _ slot slots free small eq =>
      rw [eq]
      obtain ⟨⟨-, ha, -⟩, hpend, subs, hsq, hlen, hsub⟩ :=
        issueFirst_spec (c.openMiss slot slots req rest) slot
      intro s hs
      rw [ha] at hs
      rcases List.mem_append.mp hs with hs | hs
      · have hss := hdisj free s hs
        refine (h s hs).congr (.of_eq ?_) (owed_le_append (c := c) hsq s)
        simp [hpend, openMiss_pending, hss]
      · obtain rfl := List.mem_singleton.mp hs
        have hids : ∀ m ∈ subs, m.id = s := by
          intro m hm
          obtain ⟨i, hi⟩ := List.mem_iff_getElem?.mp hm
          exact (hsub i m hi).id
        constructor
        · simp [hpend, openMiss_pending]
        · simp [hpend, openMiss_pending]
        · simpa [hpend, openMiss_pending] using small
        · intro _
          rw [owed_append hsq, countP_self hids, hlen, hpend]
          simp only [openMiss_pending, Function.update_self]
          omega

theorem ObjectsOk.cycle {c : Cache} {mem : List MemoryAccess} (hw : c.SlotsWF)
    (h : c.ObjectsOk mem) : c.cycle.ObjectsOk mem := by
  have key : c.continueIssues.processRequests.SlotsWF ∧
      c.continueIssues.processRequests.ObjectsOk mem :=
    processRequests_induction (P := fun d => d.SlotsWF ∧ d.ObjectsOk mem)
      (fun d _ hd => ⟨hd.1.processOneRequest, hd.2.processOneRequest hd.1⟩)
      ⟨hw.continueIssues, h.continueIssues⟩
  exact key.2

/-- A response counted for a slot may take one access off the way to that slot. -/
theorem ObjectsOk.pushMemoryResponse {c : Cache} {mem mem' : List MemoryAccess} (hw : c.SlotsWF)
    (h : c.ObjectsOk mem) (resp : MemoryAccess)
    (hmem : ∀ s, c.owed mem s ≤ c.owed mem' s + if s = resp.id then 1 else 0) :
    (c.pushMemoryResponse resp).ObjectsOk mem' := by
  have hother : ∀ s, s ≠ resp.id → c.owed mem s ≤ c.owed mem' s := by
    intro s hs
    have := hmem s
    rwa [if_neg hs] at this
  cases ha : (c.pending resp.id).active with
  | false =>
    have hinactive : resp.id ∉ c.activeSlots := by
      rw [← hw.active, ha]
      simp
    rw [pushMemoryResponse_ignored (.inl ha)]
    intro s hs
    have hs' : s ∈ c.activeSlots := by simpa using hs
    have hne : s ≠ resp.id := fun heq => hinactive (heq ▸ hs')
    refine (h s hs').congr (.of_eq (by simp)) ?_
    simpa [owed] using hother s hne
  | true =>
    have hs := (hw.active resp.id).mp ha
    obtain ⟨subs, hq, hids, -, -, hrest, hcase⟩ := pushMemoryResponse_cases hw hs
    have hle : ∀ s, s ≠ resp.id → s ∈ c.activeSlots →
        (c.pushMemoryResponse resp).ObjectOk mem' s := fun s hne hsa =>
      (h s hsa).congr (hrest s hne) ((hother s hne).trans (owed_le_append hq s))
    intro s hsd
    cases hcase with
    | kept active object _ _ =>
      rw [active] at hsd
      by_cases hss : s = resp.id
      · subst hss
        obtain ⟨hfirst, htotal, hburst, hissued⟩ := h resp.id hsd
        have hone := hmem resp.id
        rw [if_pos rfl] at hone
        constructor <;> simp only [object]
        · exact hfirst
        · exact htotal
        · exact hburst
        · intro hb
          have := hissued hb
          rw [owed_append hq, countP_self hids]
          omega
      · exact hle s hss hsd
    | released active _ _ =>
      obtain ⟨hsa, hss⟩ := (active s).mp hsd
      exact hle s hss hsa

end Cache

namespace Bank

open Cache

/-- Every request pushed so far is in the input queue, waits on one active slot, is in the output
queue or has been popped. -/
def Located (b : Bank) : Prop :=
  (b.l2.held ++ b.popped).Perm (b.pushed.map MemoryAccess.answered)

theorem located_step {b b' : Bank} {a : Act} (hI : Inv b) (h : Located b)
    (hs : b.step a = some b') : Located b' := by
  have hresp : ∀ resp, ((b.l2.pushMemoryResponse resp).held ++ b.popped).Perm
      (b.pushed.map MemoryAccess.answered) := fun resp =>
    ((pushMemoryResponse_held hI.slots resp).append_right _).trans h
  cases a with
  | pushRequest req =>
    obtain rfl := Option.some.inj hs
    have hheld : (b.l2.pushRequest req).held.Perm (b.l2.held ++ [req.answered]) := by
      have hw : (b.l2.pushRequest req).waiting = b.l2.waiting := rfl
      have hi : (b.l2.pushRequest req).inQ = b.l2.inQ ++ [req] := rfl
      have ho : (b.l2.pushRequest req).outQ = b.l2.outQ := rfl
      unfold held
      rw [hw, hi, ho]
      simp only [List.map_append, List.map_cons, List.map_nil, List.append_assoc]
      refine List.Perm.append_left _ ?_
      rw [List.singleton_append]
      exact (List.perm_append_singleton _ _).symm.trans (by simp)
    unfold Located
    simp only [List.map_append, List.map_cons, List.map_nil]
    refine (hheld.append_right _).trans ?_
    rw [List.append_assoc]
    refine (List.perm_append_comm.append_left _).trans ?_
    rw [← List.append_assoc]
    exact List.Perm.append_right _ h
  | cycle =>
    obtain rfl := Option.some.inj hs
    exact ((cycle_held hI.slots).append_right _).trans h
  | popMissRequest =>
    obtain ⟨m, -, rfl⟩ := Option.map_eq_some_iff.mp hs
    exact h
  | popWbRequest =>
    obtain ⟨m, -, rfl⟩ := Option.map_eq_some_iff.mp hs
    exact h
  | answerMiss i =>
    obtain ⟨m, -, rfl⟩ := Option.map_eq_some_iff.mp hs
    exact hresp m.answered
  | answerWb i =>
    obtain ⟨m, -, rfl⟩ := Option.map_eq_some_iff.mp hs
    exact hresp m.answered
  | popResponse =>
    obtain ⟨m, hm, rfl⟩ := Option.map_eq_some_iff.mp hs
    obtain ⟨rest, hq⟩ : ∃ rest, b.l2.outQ = m :: rest := List.head?_eq_some_iff.mp hm
    have hw : b.l2.popResponse.waiting = b.l2.waiting := rfl
    have hi : b.l2.popResponse.inQ = b.l2.inQ := rfl
    have ho : b.l2.popResponse.outQ = rest := by simp [popResponse, hq]
    refine List.Perm.trans ?_ h
    unfold held
    rw [hw, hi, ho, hq]
    simp only [List.append_assoc]
    refine List.Perm.append_left _ ?_
    rw [← List.append_assoc]
    exact List.perm_append_singleton m _

theorem objectsOk_step {b b' : Bank} {a : Act} (hI : Inv b) (h : b.l2.ObjectsOk b.missMem)
    (hs : b.step a = some b') : b'.l2.ObjectsOk b'.missMem := by
  cases a with
  | pushRequest req =>
    obtain rfl := Option.some.inj hs
    exact fun s hsa => (h s hsa).congr (.of_eq rfl) (le_refl _)
  | cycle =>
    obtain rfl := Option.some.inj hs
    exact h.cycle hI.slots
  | popMissRequest =>
    obtain ⟨m, hm, rfl⟩ := Option.map_eq_some_iff.mp hs
    obtain ⟨rest, hq⟩ : ∃ rest, b.l2.missQ = m :: rest := List.head?_eq_some_iff.mp hm
    refine fun s hsa => (h s hsa).congr (.of_eq rfl) (le_of_eq ?_)
    simp only [owed, popMissRequest, hq, List.tail_cons, List.countP_append, List.countP_cons,
      List.countP_nil]
    omega
  | popWbRequest =>
    obtain ⟨m, -, rfl⟩ := Option.map_eq_some_iff.mp hs
    exact fun s hsa => (h s hsa).congr (.of_eq rfl) (le_refl _)
  | answerMiss i =>
    obtain ⟨m, hm, rfl⟩ := Option.map_eq_some_iff.mp hs
    obtain ⟨hi, hmi⟩ := List.getElem?_eq_some_iff.mp hm
    refine h.pushMemoryResponse hI.slots m.answered fun s => ?_
    have hperm : (m :: b.missMem.eraseIdx i).Perm b.missMem := by
      rw [← hmi]
      exact List.getElem_cons_eraseIdx_perm hi
    have hc := hperm.countP_eq (fun x => x.id == s)
    rw [List.countP_cons] at hc
    simp only [beq_iff_eq] at hc
    simp only [owed, List.countP_append, MemoryAccess.answered_id, eq_comm (a := s)]
    omega
  | answerWb i =>
    obtain ⟨m, -, rfl⟩ := Option.map_eq_some_iff.mp hs
    exact h.pushMemoryResponse hI.slots m.answered fun s => Nat.le_add_right _ _
  | popResponse =>
    obtain ⟨m, -, rfl⟩ := Option.map_eq_some_iff.mp hs
    exact fun s hsa => (h s hsa).congr (.of_eq rfl) (le_refl _)

theorem Run.located {t : List (Bank × Act)} {b : Bank} (run : Run t b) :
    Located b ∧ b.l2.ObjectsOk b.missMem := by
  have key : Inv b ∧ Located b ∧ b.l2.ObjectsOk b.missMem := by
    refine Machine.Run.invariant
      (P := fun b => Inv b ∧ Located b ∧ b.l2.ObjectsOk b.missMem) run ⟨inv_init, ?_, ?_⟩
      fun _ _ _ h hs => ⟨h.1.step hs, located_step h.1 h.2.1 hs, objectsOk_step h.1 h.2.2 hs⟩
    · exact .refl _
    · intro s hs
      simp at hs
  exact key.2

end Bank

/-! ## Blocks that were never issued -/

namespace Cache

/-- Every block of the object in `s` has been issued. -/
def FullyIssued (c : Cache) (s : Nat) : Prop :=
  (c.pending s).totalBlocks ≤ (c.pending s).issuedBlocks

/-- With an empty miss queue no object of the bank has blocks left to issue. -/
def Drained (c : Cache) : Prop := c.missQ = [] → ∀ s ∈ c.activeSlots, c.FullyIssued s

theorem toIssue_pos {c : Cache} {slot : Nat} (hq : c.missQ = [])
    (h : (c.pending slot).issuedBlocks < (c.pending slot).totalBlocks)
    (hlt : (c.pending slot).totalBlocks < 2 ^ 32) : 0 < c.toIssue slot := by
  unfold toIssue
  simp only [hq, List.length_nil, sub32, MAX_MISS_Q_DEPTH]
  omega

/-- Issuing for a slot with blocks left and an empty miss queue fills the queue. -/
theorem continueIssue_drained {c : Cache} (h : c.SlotsWF) {slot : Nat} (hs : slot ∈ c.activeSlots)
    (hq : (c.continueIssue slot).missQ = []) :
    c.missQ = [] ∧ (c.continueIssue slot).pending = c.pending ∧ c.FullyIssued slot := by
  have hactive := (h.active slot).mpr hs
  obtain ⟨subs, hm, hlen, -⟩ := (issueBlocks_spec c slot).subs
  unfold continueIssue at hq ⊢
  split at hq
  · rename_i hfull
    rw [hq] at hfull
    exact absurd hfull (by decide)
  · rename_i hroom
    rw [if_neg hroom]
    split at hq
    · rename_i hleft
      rw [hm, List.append_eq_nil_iff] at hq
      have hpos := toIssue_pos hq.1 (by simpa [hactive] using hleft) (h.issued slot hs).2
      rw [hq.2] at hlen
      simp only [List.length_nil] at hlen
      omega
    · rename_i hleft
      rw [if_neg hleft]
      refine ⟨hq, rfl, ?_⟩
      simpa [FullyIssued, hactive] using hleft

theorem continueIssues_drained {c : Cache} (h : c.SlotsWF) : c.continueIssues.Drained := by
  by_cases hact : c.activeSlots = []
  · have hcount : c.activePending = 0 := by
      rw [h.count, hact]
      rfl
    have hsame : c.continueIssues = c := by
      rw [continueIssues, hcount]
      rfl
    rw [hsame]
    intro _ s hs
    simp [hact] at hs
  · have hpos : 0 < c.activePending := by
      rw [h.count]
      exact List.length_pos_iff.mpr hact
    -- the slots visited so far have nothing left while the queue is empty
    have key : ∀ (l : List Nat) (d : Cache), d.SlotsWF → (∀ s ∈ l, s ∈ d.activeSlots) →
        (l.foldl continueIssue d).missQ = [] →
        d.missQ = [] ∧ (l.foldl continueIssue d).pending = d.pending ∧ ∀ s ∈ l, d.FullyIssued s := by
      intro l
      induction l with
      | nil => exact fun d _ _ hq => ⟨hq, rfl, by simp⟩
      | cons x l ih =>
        intro d hd hl hq
        have hx := hl x (by simp)
        obtain ⟨hq1, hp1, hf1⟩ := ih (d.continueIssue x) (hd.continueIssue hx)
          (fun s hs => by rw [continueIssue_activeSlots]; exact hl s (List.mem_cons_of_mem _ hs)) hq
        obtain ⟨hq2, hp2, hf2⟩ := continueIssue_drained hd hx hq1
        refine ⟨hq2, hp1.trans hp2, fun s hs => ?_⟩
        rcases List.mem_cons.mp hs with rfl | hs
        · exact hf2
        · have := hf1 s hs
          rwa [FullyIssued, hp2] at this
    intro hq s hs
    have hroom : c.missQ.length < MAX_MISS_Q_DEPTH := by
      by_contra hno
      have hsame : c.continueIssues = c := by simp [continueIssues, hno]
      rw [hsame] at hq
      rw [hq] at hno
      exact hno (by decide)
    have hfold : c.continueIssues = c.activeSlots.foldl continueIssue c := by
      simp [continueIssues, hpos, hroom]
    have hactive : c.continueIssues.activeSlots = c.activeSlots :=
      continueIssues_induction (P := fun d => d.activeSlots = c.activeSlots)
        continueIssue_activeSlots (fun d x _ hd => by rw [continueIssue_activeSlots, hd]) rfl
    rw [hactive] at hs
    rw [hfold] at hq ⊢
    obtain ⟨-, hp, hall⟩ := key c.activeSlots c h (fun _ hs => hs) hq
    rw [FullyIssued, hp]
    exact hall s hs

theorem processOneRequest_drained {c : Cache} (h : c.SlotsWF) (hd : c.Drained) :
    c.processOneRequest.2.Drained := by
  have hcounts := processOneRequest_counts h
  intro hq s hs
  cases hin : c.inQ with
  | nil =>
    rw [processOneRequest_nil hin] at hq hs ⊢
    exact hd hq s hs
  | cons req rest =>
    cases hcounts with
    | same active missQ counts _ =>
      obtain ⟨hi, -, ht⟩ := counts s
      rw [FullyIssued, hi, ht]
      exact hd (missQ ▸ hq) s (active ▸ hs)
    | opened slot subs new active missQ ids counts _ _ =>
      rw [missQ, List.append_eq_nil_iff] at hq
      rw [active, List.mem_append, List.mem_singleton] at hs
      rcases hs with hs | rfl
      · obtain ⟨hi, -, ht⟩ := counts s fun heq => new (heq ▸ hs)
        rw [FullyIssued, hi, ht]
        exact hd hq.1 s hs
      · -- the new object was issued while the queue had room for all of it
        have hopened : ∀ x slots, c.freeSlots = x :: slots →
            c.processOneRequest.2.activeSlots = c.activeSlots ++ [x] → x = s := by
          intro x slots _ hx
          rw [active] at hx
          have := List.append_cancel_left hx
          simpa using this.symm
        cases processOneRequest_cases h hin with
        | hit _ eq => rw [eq] at active; simp at active
        | coalesced _ _ _ _ eq => rw [eq] at active; simp at active
        | full _ _ _ eq => rw [eq] at active; simp at active
        | burst _ _ x slots free _ eq =>
          rw [eq] at missQ
          obtain ⟨-, -, m, hm, -⟩ := issueBurst_spec (c.openMiss x slots req rest) x req
          have hm' : c.missQ ++ [m] = c.missQ ++ subs := hm.symm.trans missQ
          rw [hq.2] at hm'
          simp at hm'
        | blocks _ _ x slots free _ eq =>
          obtain ⟨⟨-, ha, -⟩, hpend, subs', hsq, hlen, -⟩ :=
            issueFirst_spec (c.openMiss x slots req rest) x
          have hx : x = s := hopened x slots free (by rw [eq]; exact ha)
          subst hx
          rw [eq] at missQ ⊢
          have hsub : subs' = [] := by
            have hm' : c.missQ ++ subs' = c.missQ ++ subs := hsq.symm.trans missQ
            rw [hq.2] at hm'
            simpa using hm'
          by_contra hleft
          have hzero : 0 < (c.openMiss x slots req rest).toIssue x := by
            refine toIssue_pos hq.1 ?_ ?_
            · have hpend' : (((c.openMiss x slots req rest).issueFirst x).pending x).totalBlocks =
                  ((c.openMiss x slots req rest).pending x).totalBlocks := by simp [hpend]
              unfold FullyIssued at hleft
              rw [hpend'] at hleft
              simp only [hpend, Function.update_self] at hleft
              omega
            · simp only [openMiss_pending, Function.update_self, nBlocks, BLOCK_SIZE]
              omega
          rw [hsub] at hlen
          simp only [List.length_nil] at hlen
          omega

/-- After a cycle, blocks that were not issued are waiting behind a miss queue that is not empty. -/
theorem cycle_drained {c : Cache} (h : c.SlotsWF) : c.cycle.Drained := by
  have key : c.continueIssues.processRequests.SlotsWF ∧ c.continueIssues.processRequests.Drained :=
    processRequests_induction (P := fun d => d.SlotsWF ∧ d.Drained)
      (fun d _ hd => ⟨hd.1.processOneRequest, processOneRequest_drained hd.1 hd.2⟩)
      ⟨h.continueIssues, continueIssues_drained h⟩
  exact key.2

end Cache

namespace Bank

open Cache

/-- Nothing is left to do: the queues are empty and memory owes no block. -/
structure Quiescent (b : Bank) : Prop where
  inQ : b.l2.inQ = []
  missQ : b.l2.missQ = []
  missMem : b.missMem = []

/-- An object that no further answer completes: it is on the large-object path, or some of its
blocks were not issued. -/
def Stalled (po : PendingObject) : Prop :=
  po.isBurstMode = true ∨ po.issuedBlocks < po.totalBlocks

/-- The size of a pending object is that of a request that was pushed. -/
theorem Run.objSize {t : List (Bank × Act)} {b : Bank} (run : Run t b) {s : Nat}
    (hs : s ∈ b.l2.activeSlots) : ∃ r ∈ b.pushed, (b.l2.pending s).objSize = r.objectSize := by
  obtain ⟨hloc, hobj⟩ := run.located
  obtain ⟨r, rest, hr, hsize⟩ := (hobj s hs).first
  have hmem : r.answered ∈ b.l2.held ++ b.popped := by
    have hw : r ∈ b.l2.waiting := List.mem_flatMap.mpr ⟨s, hs, by simp [hr]⟩
    refine List.mem_append_left _ (List.mem_append_left _ (List.mem_map.mpr ⟨r, ?_, rfl⟩))
    exact List.mem_append_right _ hw
  obtain ⟨r', hr', heq⟩ := List.mem_map.mp (hloc.mem_iff.mp hmem)
  have hsame : r'.answered.objectSize = r.answered.objectSize := by rw [heq]
  exact ⟨r', hr', hsize.trans hsame.symm⟩

/-- A quiescent bank holds no objects but stalled ones. -/
theorem Quiescent.stalled {t : List (Bank × Act)} {b : Bank} (run : Run t b)
    (hsize : ∀ r ∈ b.pushed, 1 ≤ r.objectSize) (hq : Quiescent b) {s : Nat}
    (hs : s ∈ b.l2.activeSlots) : Stalled (b.l2.pending s) := by
  obtain ⟨-, htotal, hburst, hissued⟩ := run.located.2 s hs
  have hzero : b.l2.owed b.missMem s = 0 := by simp [owed, hq.missQ, hq.missMem]
  obtain ⟨r, hr, hobj⟩ := run.objSize hs
  have hpos := hsize r hr
  rw [Stalled]
  by_contra hnot
  rw [not_or, Bool.not_eq_true, Nat.not_lt] at hnot
  have hle := hissued hnot.1
  have hsmall : ¬ LARGE_OBJ_THRESHOLD ≤ (b.l2.pending s).objSize := by
    rw [← hburst, hnot.1]
    simp
  have hblocks : 1 ≤ (b.l2.pending s).totalBlocks := by
    rw [htotal]
    unfold nBlocks BLOCK_SIZE LARGE_OBJ_THRESHOLD at *
    omega
  rcases (Run.inv run).unfinished s hs with hun | hun <;> omega

/-- After a cycle, and without requests at or above the large-object threshold, a bank with an empty
miss queue has no stalled object. -/
theorem not_stalled_of_cycle {t : List (Bank × Act)} {b b' : Bank}
    (run : Run (t ++ [(b', .cycle)]) b) (hsmall : ∀ r ∈ b.pushed, r.objectSize < LARGE_OBJ_THRESHOLD)
    (hq : Quiescent b) {s : Nat} (hs : s ∈ b.l2.activeSlots) : ¬ Stalled (b.l2.pending s) := by
  obtain ⟨run', step⟩ := Machine.Run.last run
  have hdrained : b.l2.Drained := by
    obtain rfl := Option.some.inj step
    exact cycle_drained (Bank.Run.slotsWF run')
  have hfull := hdrained hq.missQ s hs
  obtain ⟨r, hr, hobj⟩ := run.objSize hs
  have hlt := hsmall r hr
  intro hstalled
  rcases hstalled with hburst | hleft
  · rw [(run.located.2 s hs).burst] at hburst
    omega
  · unfold FullyIssued at hfull
    omega

/-- A read of 384 KiB, the smallest object of the large-object path. -/
def largeRead : MemoryAccess :=
  { ptr := .heap 0, id := 1, dramAddress := 0, size := 393216, objectSize := 393216, write := false,
    request := true, coreId := 0, bufferId := 0 }

/-- The large read meets an idle bank and memory answers the one access that stands for it. -/
def largeRun : List Act := [.pushRequest largeRead, .cycle, .popMissRequest, .answerMiss 0]

theorem largeRun_idle {b : Bank} (h : b.Idle) (hmiss : ¬ b.l2.Resident largeRead.dramAddress) :
    ∃ b', largeRun.foldlM step b = some b' ∧ Quiescent b' ∧ b'.pushed = b.pushed ++ [largeRead] ∧
      0 ∈ b'.l2.activeSlots ∧ (b'.l2.pending 0).waitingReqs = [largeRead] := by
  have hslots : (b.l2.pushRequest largeRead).SlotsWF := h.slots.step (.pushRequest largeRead)
  obtain ⟨slots, hfree, eq⟩ := h.l2.takes_slot h.slots hmiss
  rw [if_pos (by decide)] at eq
  obtain ⟨⟨-, ha, -, hi, -⟩, hpend, m, hm, hid, -⟩ :=
    issueBurst_spec ((b.l2.pushRequest largeRead).openMiss 0 slots largeRead []) 0 largeRead
  have hinQ : (b.l2.pushRequest largeRead).processOneRequest.2.inQ = [] := by
    rw [eq]
    exact hi
  have hcyc := (cycle_single hslots h.l2.activeSlots (by rw [eq]) hinQ).1
  rw [eq] at hcyc
  have hwf : (b.l2.pushRequest largeRead).cycle.SlotsWF := hslots.step .cycle
  rw [hcyc] at hwf
  have hact : (((b.l2.pushRequest largeRead).openMiss 0 slots largeRead []).issueBurst 0
      largeRead).activeSlots = [0] := by
    rw [ha]
    simp [openMiss, openSlot, pushRequest, h.l2.activeSlots]
  have hmissQ : (((b.l2.pushRequest largeRead).openMiss 0 slots largeRead []).issueBurst 0
      largeRead).missQ = [m] := by
    rw [hm]
    simp [openMiss, openSlot, pushRequest, h.l2.missQ]
  generalize ((b.l2.pushRequest largeRead).openMiss 0 slots largeRead []).issueBurst 0 largeRead = d
    at *
  have hn : nBlocks 393216 = 3072 := by decide
  have hobj : (d.pending 0).totalBlocks = 3072 ∧ (d.pending 0).issuedBlocks = 3072 ∧
      (d.pending 0).returnedBlocks = 0 ∧ (d.pending 0).waitingReqs = [largeRead] := by
    rw [hpend]
    simp [burstObject, openMiss_pending, largeRead, hn]
  have hpop : d.popMissRequest.SlotsWF := hwf.step .popMissRequest
  have hmem : m.answered.id ∈ d.popMissRequest.activeSlots := by
    show m.id ∈ d.activeSlots
    simp [hid, hact]
  obtain ⟨subs, hsq, -, hroom, hin, -, hcase⟩ := pushMemoryResponse_cases hpop hmem
  have hpp : d.popMissRequest.pending 0 = d.pending 0 := rfl
  rw [MemoryAccess.answered_id, hid, hpp, hobj.1, hobj.2.1] at hroom
  rw [MemoryAccess.answered_id, hid] at hcase
  have hsubs : subs = [] := List.length_eq_zero_iff.mp (by omega)
  refine ⟨{ b with
    l2 := d.popMissRequest.pushMemoryResponse m.answered, missMem := [],
    pushed := b.pushed ++ [largeRead] }, ?_, ⟨?_, ?_, rfl⟩, rfl, ?_⟩
  · simp [largeRun, step, hcyc, hmissQ, h.missMem]
  · rw [hin]
    exact hi
  · rw [hsq, hsubs]
    simp [popMissRequest, hmissQ]
  · -- one answer has come back, 3072 are waited for
    cases hcase with
    | kept active object _ _ =>
      refine ⟨?_, ?_⟩
      · rw [active]
        show 0 ∈ d.activeSlots
        simp [hact]
      · rw [object]
        exact hobj.2.2.2
    | released _ _ finished =>
      rw [hpp, hobj.1, hobj.2.2.1] at finished
      omega

theorem largeRun_reaches : ∃ t b, Run t b ∧ Quiescent b ∧ b.pushed = [largeRead] ∧
    0 ∈ b.l2.activeSlots ∧ (b.l2.pending 0).waitingReqs = [largeRead] := by
  obtain ⟨b, hrun, hb⟩ := largeRun_idle idle_init (init_not_resident largeRead.dramAddress)
  obtain ⟨t, -, run⟩ := Machine.Run.of_foldlM hrun
  exact ⟨t, b, run, hb⟩

end Bank

end OnnxSim
