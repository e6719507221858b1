import OnnxSim.Cache.Requests

/-!
# The blocks a bank deals with

A set `H` of blocks that contains every block of every request pushed into a bank contains every
block the bank ever asks memory for, writes back or holds (`BlocksIn`).
-/

namespace OnnxSim

namespace Cache

/-- The blocks the bank asks for on a miss of `req`: the block of its first byte on the large-object
path, and otherwise as many consecutive blocks as its size fills. -/
def ObjectIn (H : AddrType → Prop) (req : MemoryAccess) : Prop :=
  H (blockBase req.dramAddress) ∧ ∀ k, k < nBlocks req.objectSize →
    H (blockBase req.dramAddress + BitVec.ofNat 64 (k * BLOCK_SIZE))

/-- `H` is a set of blocks. -/
def BlockSet (H : AddrType → Prop) : Prop := ∀ a b, SameBlock a b → H a → H b

/-- Every block of the pending objects, of the sub-requests and of the writebacks is in `H`; `mem`
are the accesses memory holds. -/
structure RequestsIn (H : AddrType → Prop) (c : Cache) (mem : List MemoryAccess) : Prop where
  inQ : ∀ r ∈ c.inQ, ObjectIn H r
  objects : ∀ s ∈ c.activeSlots, ∀ k, k < (c.pending s).totalBlocks →
    H ((c.pending s).baseAddr + BitVec.ofNat 64 (k * BLOCK_SIZE))
  subs : ∀ m ∈ c.missQ ++ mem, H m.dramAddress

/-- Every block the bank holds is in `H`. -/
def LinesIn (H : AddrType → Prop) (c : Cache) : Prop := ∀ a, c.Resident a → H a

section

variable {H : AddrType → Prop} {mem : List MemoryAccess}

theorem RequestsIn.issue {c c' : Cache} (h : RequestsIn H c mem) {slot n : Nat}
    (hs : slot ∈ c.activeSlots) (hi : IssueSpec c c' slot n)
    (hroom : (c.pending slot).issuedBlocks + n ≤ (c.pending slot).totalBlocks) :
    RequestsIn H c' mem := by
  obtain ⟨subs, hq, -, hsubs⟩ := hi.subs
  obtain ⟨-, ha, -, hin, -⟩ := hi.frame
  refine ⟨?_, fun s hsa => ?_, fun m hm => ?_⟩
  · rw [hin]
    exact h.inQ
  · rw [ha] at hsa
    rw [hi.pending]
    by_cases hss : s = slot
    · subst hss
      simpa using h.objects s hsa
    · simpa [hss] using h.objects s hsa
  · rw [hq, List.append_assoc, List.mem_append, List.mem_append] at hm
    rcases hm with hm | hm | hm
    · exact h.subs m (List.mem_append_left _ hm)
    · obtain ⟨k, hk, hblock⟩ := hsubs m hm
      rw [hblock.address]
      exact h.objects slot hs k (by omega)
    · exact h.subs m (List.mem_append_right _ hm)

theorem RequestsIn.continueIssues {c : Cache} (hw : c.SlotsWF) (h : RequestsIn H c mem) :
    RequestsIn H c.continueIssues mem := by
  have key : c.continueIssues.SlotsWF ∧ RequestsIn H c.continueIssues mem := by
    refine continueIssues_induction (P := fun d => d.SlotsWF ∧ RequestsIn H d mem)
      continueIssue_activeSlots (fun d s hs hd => ⟨hd.1.continueIssue hs, ?_⟩) ⟨hw, h⟩
    unfold continueIssue
    split
    · exact hd.2
    · split
      · exact hd.2.issue hs (issueBlocks_spec d s) (toIssue_le hd.1 hs)
      · exact hd.2
  exact key.2

theorem RequestsIn.processOneRequest {c : Cache} (hw : c.SlotsWF) (h : RequestsIn H c mem) :
    RequestsIn H c.processOneRequest.2 mem := by
  cases hq : c.inQ with
  | nil =>
    rw [processOneRequest_nil hq]
    exact h
  | cons req rest =>
    have hreq : ObjectIn H req := h.inQ req (by simp [hq])
    have hrest : ∀ r ∈ rest, ObjectIn H r := fun r hr => h.inQ r (by simp [hq, hr])
    have hdisj : ∀ {slot slots}, c.freeSlots = slot :: slots → ∀ s ∈ c.activeSlots, s ≠ slot :=
      fun free s hs heq => hw.disjoint s hs (by simp [free, heq])
    cases processOneRequest_cases hw hq with
    | hit _ eq =>
      rw [eq]
      exact ⟨by simpa using hrest, by simpa using h.objects, by simpa using h.subs⟩
    | coalesced _ slot _ _ eq =>
      rw [eq]
      refine ⟨by simpa using hrest, fun s hs => ?_, by simpa using h.subs⟩
      by_cases hss : s = slot
      · subst hss
        simpa using h.objects s hs
      · simpa [hss] using h.objects s hs
    | full _ _ _ eq =>
      rw [eq]
      exact h
    | burst _ _ slot slots free _ eq =>
      rw [eq]
      obtain ⟨⟨-, ha, -, hi, -⟩, hpend, m, hm, -, haddr, -⟩ :=
        issueBurst_spec (c.openMiss slot slots req rest) slot req
      refine ⟨?_, fun s hs => ?_, fun x hx => ?_⟩
      · rw [hi]
        exact hrest
      · rw [ha] at hs
        rcases List.mem_append.mp hs with hs | hs
        · simpa [hpend, openMiss_pending, hdisj free s hs] using h.objects s hs
        · obtain rfl := List.mem_singleton.mp hs
          simpa [hpend, openMiss_pending, burstObject] using hreq.2
      · rw [hm, List.append_assoc, List.mem_append, List.mem_append, List.mem_singleton] at hx
        rcases hx with hx | rfl | hx
        · exact h.subs x (List.mem_append_left _ hx)
        · rw [haddr]
          exact hreq.1
        · exact h.subs x (List.mem_append_right _ hx)
    | blocks _ find slot slots free _ eq =>
      have hopen := hw.openMiss free find rest
      rw [eq]
      obtain ⟨⟨-, ha, -, hi, -⟩, hpend, subs, hsq, hlen, hsub⟩ :=
        issueFirst_spec (c.openMiss slot slots req rest) slot
      have hroom := toIssue_le hopen (openMiss_mem c slot slots req rest)
      refine ⟨?_, fun s hs => ?_, fun x hx => ?_⟩
      · rw [hi]
        exact hrest
      · rw [ha] at hs
        rcases List.mem_append.mp hs with hs | hs
        · simpa [hpend, openMiss_pending, hdisj free s hs] using h.objects s hs
        · obtain rfl := List.mem_singleton.mp hs
          simpa [hpend, openMiss_pending] using hreq.2
      · rw [hsq, List.append_assoc, List.mem_append, List.mem_append] at hx
        rcases hx with hx | hx | hx
        · exact h.subs x (List.mem_append_left _ hx)
        · obtain ⟨i, hi'⟩ := List.mem_iff_getElem?.mp hx
          have hlt := (List.getElem?_eq_some_iff.mp hi').1
          rw [(hsub i x hi').address]
          simp only [openMiss_pending, Function.update_self] at hroom ⊢
          exact hreq.2 _ (by omega)
        · exact h.subs x (List.mem_append_right _ hx)

theorem RequestsIn.cycle {c : Cache} (hw : c.SlotsWF) (h : RequestsIn H c mem) :
    RequestsIn H c.cycle mem := by
  have key : c.continueIssues.processRequests.SlotsWF ∧
      RequestsIn H c.continueIssues.processRequests mem :=
    processRequests_induction (P := fun d => d.SlotsWF ∧ RequestsIn H d mem)
      (fun d _ hd => ⟨hd.1.processOneRequest, hd.2.processOneRequest hd.1⟩)
      ⟨hw.continueIssues, h.continueIssues hw⟩
  exact key.2

theorem RequestsIn.pushMemoryResponse {c : Cache} {mem' : List MemoryAccess} (hw : c.SlotsWF)
    (h : RequestsIn H c mem) (resp : MemoryAccess) (hmem : ∀ m ∈ mem', m ∈ mem) :
    RequestsIn H (c.pushMemoryResponse resp) mem' := by
  have hold : ∀ m ∈ c.missQ ++ mem', H m.dramAddress := by
    intro m hm
    rcases List.mem_append.mp hm with hm | hm
    · exact h.subs m (List.mem_append_left _ hm)
    · exact h.subs m (List.mem_append_right _ (hmem m hm))
  cases ha : (c.pending resp.id).active with
  | false =>
    rw [pushMemoryResponse_ignored (.inl ha)]
    exact ⟨by simpa using h.inQ, by simpa using h.objects, by simpa using hold⟩
  | true =>
    have hs := (hw.active resp.id).mp ha
    obtain ⟨_, -, -, -, hin, hother, hcase⟩ := pushMemoryResponse_cases hw hs
    obtain ⟨subs, hq, hsubs⟩ := pushMemoryResponse_subs hw hs
    have hall : ∀ m ∈ subs, H m.dramAddress := by
      intro m hm
      obtain ⟨k, hk, hblock⟩ := hsubs m hm
      rw [hblock.address]
      exact h.objects resp.id hs k hk
    have hrest : ∀ s, s ∈ c.activeSlots → s ≠ resp.id → ∀ k,
        k < ((c.pushMemoryResponse resp).pending s).totalBlocks →
        H (((c.pushMemoryResponse resp).pending s).baseAddr + BitVec.ofNat 64 (k * BLOCK_SIZE)) := by
      intro s hsc hss
      obtain ⟨i, hi⟩ := hother s hss
      rw [hi]
      exact h.objects s hsc
    refine ⟨?_, fun s hsd => ?_, fun m hm => ?_⟩
    · rw [hin]
      exact h.inQ
    · cases hcase with
      | kept active object _ _ =>
        rw [active] at hsd
        by_cases hss : s = resp.id
        · subst hss
          rw [object]
          exact h.objects resp.id hsd
        · exact hrest s hsd hss
      | released active _ _ =>
        obtain ⟨hsc, hss⟩ := (active s).mp hsd
        exact hrest s hsc hss
    · rw [hq, List.append_assoc, List.mem_append, List.mem_append] at hm
      rcases hm with hm | hm | hm
      · exact h.subs m (List.mem_append_left _ hm)
      · exact hall m hm
      · exact h.subs m (List.mem_append_right _ (hmem m hm))

/-- A response brings in the block of its address and no other. -/
theorem pushMemoryResponse_resident {c : Cache} (hl : c.SetsWF) (hw : c.SlotsWF)
    (resp : MemoryAccess) {a : AddrType} (ha : (c.pushMemoryResponse resp).Resident a) :
    c.Resident a ∨ SameBlock a resp.dramAddress := by
  cases hact : (c.pending resp.id).active with
  | false =>
    rw [pushMemoryResponse_ignored (.inl hact)] at ha
    have hk : KeepsLines c (c.poolRelease resp.ptr) := .of_sets (by simp) (by simp)
    exact .inl ((hk.resident a hl).mp ha)
  | true =>
    obtain ⟨hsets, -⟩ := pushMemoryResponse_sets hact (hw.lt ((hw.active _).mp hact))
    have hfill := fill_spec hl (blockBase resp.dramAddress) (c.pending resp.id).isWrite
      (c.pending resp.id).coreId
    rw [Resident, line, hsets, ← line] at ha
    by_cases hsame : SameBlock a (blockBase resp.dramAddress)
    · exact .inr (hsame.trans (sameBlock_blockBase _))
    · obtain ⟨hlines, -⟩ | ⟨v, e, -, -, hlines, -⟩ := hfill.rest
      · rw [hlines a hsame] at ha
        exact .inl ha
      · rw [hlines a hsame] at ha
        split at ha
        · cases ha
        · exact .inl ha

end

end Cache

namespace Bank

open Cache

/-- Every block a bank and its memory deal with is in `H`. -/
structure BlocksIn (H : AddrType → Prop) (b : Bank) : Prop where
  requests : RequestsIn H b.l2 b.missMem
  writebacks : ∀ m ∈ b.l2.wbQ ++ b.wbMem, H m.dramAddress
  lines : LinesIn H b.l2

theorem blocksIn_init (H : AddrType → Prop) : BlocksIn H {} where
  requests := ⟨by simp, by simp, by simp⟩
  writebacks := by simp
  lines a ha := absurd ha (init_not_resident a)

/-- A step keeps the blocks in `H` if the request it pushes, if any, has its blocks there. -/
theorem BlocksIn.step {H : AddrType → Prop} (hH : BlockSet H) {b b' : Bank} {a : Act} (hI : Inv b)
    (h : BlocksIn H b) (hpush : ∀ r, a = .pushRequest r → ObjectIn H r) (hs : b.step a = some b') :
    BlocksIn H b' := by
  -- the effect of a response whose block is in `H`
  have hresp : ∀ (m : MemoryAccess) (mem' wb' : List MemoryAccess), H m.dramAddress →
      (∀ x ∈ mem', x ∈ b.missMem) → (∀ x ∈ wb', x ∈ b.wbMem) →
      RequestsIn H (b.l2.pushMemoryResponse m.answered) mem' ∧
        (∀ x ∈ (b.l2.pushMemoryResponse m.answered).wbQ ++ wb', H x.dramAddress) ∧
        LinesIn H (b.l2.pushMemoryResponse m.answered) := by
    intro m mem' wb' hm hmem hwb
    refine ⟨h.requests.pushMemoryResponse hI.slots _ hmem, fun x hx => ?_, fun a ha => ?_⟩
    · have hold : ∀ y ∈ b.l2.wbQ ++ wb', H y.dramAddress := by
        intro y hy
        rcases List.mem_append.mp hy with hy | hy
        · exact h.writebacks y (List.mem_append_left _ hy)
        · exact h.writebacks y (List.mem_append_right _ (hwb y hy))
      cases (pushMemoryResponse_keepsDirty hI.sets hI.slots m.answered).2 with
      | kept _ wbQ =>
        rw [wbQ] at hx
        exact hold x hx
      | evicted v wasDirty _ _ w wbQ writeback =>
        rw [wbQ, List.append_assoc, List.mem_append, List.mem_append, List.mem_singleton] at hx
        rcases hx with hx | rfl | hx
        · exact hold x (List.mem_append_left _ hx)
        · rw [writeback.address]
          exact hH v _ (sameBlock_blockBase v).symm (h.lines v wasDirty.resident)
        · exact hold x (List.mem_append_right _ hx)
    · rcases pushMemoryResponse_resident hI.sets hI.slots m.answered ha with ha | ha
      · exact h.lines a ha
      · exact hH _ _ ha.symm hm
  cases a with
  | pushRequest req =>
    obtain rfl := Option.some.inj hs
    refine ⟨⟨fun r hr => ?_, h.requests.objects, h.requests.subs⟩, h.writebacks, h.lines⟩
    rcases List.mem_append.mp hr with hr | hr
    · exact h.requests.inQ r hr
    · obtain rfl := List.mem_singleton.mp hr
      exact hpush r rfl
  | cycle =>
    obtain rfl := Option.some.inj hs
    have hk := cycle_keeps hI.slots
    refine ⟨h.requests.cycle hI.slots, ?_, fun a ha => h.lines a ((hk.resident a hI.sets).mp ha)⟩
    show ∀ m ∈ b.l2.cycle.wbQ ++ b.wbMem, H m.dramAddress
    rw [hk.wbQ]
    exact h.writebacks
  | popMissRequest =>
    obtain ⟨m, hm, rfl⟩ := Option.map_eq_some_iff.mp hs
    obtain ⟨rest, hq⟩ : ∃ rest, b.l2.missQ = m :: rest := List.head?_eq_some_iff.mp hm
    refine ⟨⟨h.requests.inQ, h.requests.objects, fun x hx => ?_⟩, h.writebacks, h.lines⟩
    refine h.requests.subs x ?_
    simp only [popMissRequest, hq, List.tail_cons, List.mem_append, List.mem_cons] at hx ⊢
    tauto
  | popWbRequest =>
    obtain ⟨m, hm, rfl⟩ := Option.map_eq_some_iff.mp hs
    obtain ⟨rest, hq⟩ : ∃ rest, b.l2.wbQ = m :: rest := List.head?_eq_some_iff.mp hm
    refine ⟨⟨h.requests.inQ, h.requests.objects, h.requests.subs⟩,
      fun x hx => h.writebacks x ?_, h.lines⟩
    simp only [popWbRequest, hq, List.tail_cons, List.mem_append, List.mem_cons] at hx ⊢
    tauto
  | answerMiss i =>
    obtain ⟨m, hm, rfl⟩ := Option.map_eq_some_iff.mp hs
    have hin := h.requests.subs m (List.mem_append_right _ (List.mem_of_getElem? hm))
    obtain ⟨h1, h2, h3⟩ := hresp m (b.missMem.eraseIdx i) b.wbMem hin
      (fun x hx => List.mem_of_mem_eraseIdx hx) (fun x hx => hx)
    exact ⟨h1, h2, h3⟩
  | answerWb i =>
    obtain ⟨m, hm, rfl⟩ := Option.map_eq_some_iff.mp hs
    have hin := h.writebacks m (List.mem_append_right _ (List.mem_of_getElem? hm))
    obtain ⟨h1, h2, h3⟩ := hresp m b.missMem (b.wbMem.eraseIdx i) hin (fun x hx => hx)
      (fun x hx => List.mem_of_mem_eraseIdx hx)
    exact ⟨h1, h2, h3⟩
  | popResponse =>
    obtain ⟨m, -, rfl⟩ := Option.map_eq_some_iff.mp hs
    exact ⟨⟨h.requests.inQ, h.requests.objects, h.requests.subs⟩, h.writebacks, h.lines⟩

end Bank

end OnnxSim
