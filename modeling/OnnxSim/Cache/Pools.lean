import OnnxSim.Cache.Counts

/-!
# The buffers of the block pools

Every buffer of `_pool` and of `_wb_pool`, and every object taken from the heap in their place, is in
exactly one place: on a free list, passed to `delete`, in a queue of the bank, or in memory
(`Bank.Stocked`). Where it is may be wrong, though: all responses are released to `_pool`, and a buffer
of `_wb_pool` lies outside its storage, so the completion of a writeback deletes what was never
allocated.
-/

namespace OnnxSim

namespace Cache

/-- The buffers a bank has: on its free lists, deleted, and in its queues towards memory. -/
def stock (c : Cache) : List MemoryPtr :=
  c.poolFree.map .pool ++ c.wbPoolFree.map .wbPool ++ c.deleted ++
    (c.missQ.map (·.ptr) ++ c.wbQ.map (·.ptr))

/-- The buffers of both pools, and the first `n` objects taken from the heap. -/
def buffers (n : Nat) : List MemoryPtr :=
  (List.range BLOCK_POOL_SIZE).map .pool ++ (List.range WB_POOL_SIZE).map .wbPool ++
    (List.range n).map .fallback

/-- `d` has the buffers of `c`, and the objects taken from the heap on the way. -/
def Supplied (c d : Cache) : Prop :=
  ∃ k, d.fallbacks = c.fallbacks + k ∧
    (stock d).Perm (stock c ++ (List.range' c.fallbacks k).map .fallback)

section Supplied

variable {c d e : Cache}

theorem supplied_of_eq (hp : d.poolFree = c.poolFree) (hw : d.wbPoolFree = c.wbPoolFree)
    (hd : d.deleted = c.deleted) (hf : d.fallbacks = c.fallbacks) (hm : d.missQ = c.missQ)
    (hq : d.wbQ = c.wbQ) : Supplied c d := by
  refine ⟨0, hf, ?_⟩
  unfold stock
  rw [hp, hw, hd, hm, hq, List.range'_zero, List.map_nil, List.append_nil]

theorem Supplied.trans (h₁ : Supplied c d) (h₂ : Supplied d e) : Supplied c e := by
  obtain ⟨k, hk, hperm⟩ := h₁
  obtain ⟨l, hl, hperm'⟩ := h₂
  have hrange : List.range' c.fallbacks (k + l) =
      List.range' c.fallbacks k ++ List.range' (c.fallbacks + k) l := by
    rw [List.range'_append_1]
  refine ⟨k + l, by omega, ?_⟩
  rw [hrange, List.map_append, ← List.append_assoc, ← hk]
  exact hperm'.trans (hperm.append_right _)

end Supplied

/-- From `c` to `d` buffers are taken for sub-requests only: the writebacks, the deleted buffers and
the side of `_wb_pool` are left alone. -/
structure Draws (c d : Cache) : Prop where
  deleted : d.deleted = c.deleted
  wbPoolFree : d.wbPoolFree = c.wbPoolFree
  wbQ : d.wbQ = c.wbQ
  missQ : ∀ m ∈ d.missQ, m ∈ c.missQ ∨ ∀ i, m.ptr ≠ .wbPool i
  supplied : Supplied c d

namespace Draws

variable {c d e : Cache}

theorem of_eq (hp : d.poolFree = c.poolFree) (hw : d.wbPoolFree = c.wbPoolFree)
    (hd : d.deleted = c.deleted) (hf : d.fallbacks = c.fallbacks) (hm : d.missQ = c.missQ)
    (hq : d.wbQ = c.wbQ) : Draws c d :=
  ⟨hd, hw, hq, fun _ hm' => .inl (hm ▸ hm'), supplied_of_eq hp hw hd hf hm hq⟩

theorem refl (c : Cache) : Draws c c := of_eq rfl rfl rfl rfl rfl rfl

theorem trans (h₁ : Draws c d) (h₂ : Draws d e) : Draws c e := by
  refine ⟨h₂.deleted.trans h₁.deleted, h₂.wbPoolFree.trans h₁.wbPoolFree, h₂.wbQ.trans h₁.wbQ,
    fun m hm => ?_, h₁.supplied.trans h₂.supplied⟩
  rcases h₂.missQ m hm with hm | hm
  · exact h₁.missQ m hm
  · exact .inr hm

end Draws

/-- A buffer for a sub-request comes from the free list of `_pool`, or from the heap. -/
theorem draws_missQ {c d : Cache} (hp : d.poolFree = c.poolAlloc.2.poolFree)
    (hw : d.wbPoolFree = c.wbPoolFree) (hd : d.deleted = c.deleted)
    (hf : d.fallbacks = c.poolAlloc.2.fallbacks) (hq : d.wbQ = c.wbQ)
    (hm : ∃ m, d.missQ = c.missQ ++ [m] ∧ m.ptr = c.poolAlloc.1) : Draws c d := by
  obtain ⟨m, hm, hptr⟩ := hm
  have hnew : ∀ i, m.ptr ≠ .wbPool i := by
    intro i
    rw [hptr]
    cases hfree : c.poolFree <;> simp [poolAlloc, hfree]
  refine ⟨hd, hw, hq, fun x hx => ?_, ?_⟩
  · rw [hm, List.mem_append, List.mem_singleton] at hx
    rcases hx with hx | rfl
    · exact .inl hx
    · exact .inr hnew
  · cases hfree : c.poolFree with
    | cons idx rest =>
      simp only [poolAlloc, hfree] at hptr hp hf
      refine ⟨0, hf, List.perm_iff_count.mpr fun p => ?_⟩
      simp only [stock, hp, hw, hd, hm, hq, hfree, hptr, List.map_append, List.map_cons,
        List.map_nil, List.count_append, List.count_cons, List.count_nil, List.range'_zero]
      omega
    | nil =>
      simp only [poolAlloc, hfree] at hptr hp hf
      refine ⟨1, hf, List.perm_iff_count.mpr fun p => ?_⟩
      simp only [stock, hp, hw, hd, hm, hq, hfree, hptr, List.map_append, List.map_cons,
        List.map_nil, List.count_append, List.count_cons, List.count_nil, List.range'_one]
      omega

/-! ## The operations -/

theorem poolAlloc_wb (c : Cache) :
    c.poolAlloc.2.wbPoolFree = c.wbPoolFree ∧ c.poolAlloc.2.deleted = c.deleted := by
  cases hfree : c.poolFree <;> simp [poolAlloc, hfree]

theorem draws_issueBlock (slot : Nat) (c : Cache) : Draws c (issueBlock slot c) := by
  obtain ⟨hw, hd⟩ := poolAlloc_wb c
  have hmissQ : ∃ m, (issueBlock slot c).missQ = c.missQ ++ [m] ∧ m.ptr = c.poolAlloc.1 := by
    let po := c.pending slot
    let sub : MemoryAccess :=
      { ptr := c.poolAlloc.1, id := slot,
        dramAddress := po.baseAddr + BitVec.ofNat 64 (po.issuedBlocks * BLOCK_SIZE),
        size := BLOCK_SIZE, objectSize := BLOCK_SIZE, write := po.isWrite, request := true,
        coreId := po.coreId, bufferId := 0 }
    exact ⟨sub, by simp [issueBlock, sub, po], rfl⟩
  exact draws_missQ rfl hw hd rfl (by simp) hmissQ

theorem draws_issueBlocks (c : Cache) (slot : Nat) : Draws c (c.issueBlocks slot) := by
  unfold issueBlocks
  generalize c.toIssue slot = n
  induction n with
  | zero => exact .refl c
  | succ n ih =>
    rw [Function.iterate_succ_apply']
    exact ih.trans (draws_issueBlock slot _)

theorem draws_issueBurst (c : Cache) (slot : Nat) (req : MemoryAccess) :
    Draws c (c.issueBurst slot req) := by
  have hset : ∀ po : PendingObject, Draws c (c.setPending slot po) := fun po =>
    .of_eq rfl rfl rfl rfl rfl rfl
  refine (hset (burstObject (c.pending slot) req.objectSize)).trans ?_
  generalize hd : c.setPending slot (burstObject (c.pending slot) req.objectSize) = d
  obtain ⟨hw, hdel⟩ := poolAlloc_wb d
  let burst : MemoryAccess :=
    { ptr := d.poolAlloc.1, id := slot, dramAddress := blockBase req.dramAddress,
      size := req.objectSize, objectSize := req.objectSize, write := (c.pending slot).isWrite,
      request := true, coreId := (c.pending slot).coreId, bufferId := 0 }
  have heq : c.issueBurst slot req = { d.poolAlloc.2 with missQ := d.poolAlloc.2.missQ ++ [burst] } := by
    subst hd
    rfl
  rw [heq]
  exact draws_missQ rfl hw hdel rfl (by simp) ⟨burst, by simp, rfl⟩

theorem draws_continueIssue (c : Cache) (slot : Nat) : Draws c (c.continueIssue slot) := by
  unfold continueIssue
  split
  · exact .refl c
  · split
    · exact draws_issueBlocks c slot
    · exact .refl c

theorem draws_processOneRequest {c : Cache} (hwf : c.SlotsWF) : Draws c c.processOneRequest.2 := by
  cases hq : c.inQ with
  | nil =>
    rw [processOneRequest_nil hq]
    exact .refl c
  | cons req rest =>
    have hopen : ∀ slot slots, Draws c (c.openMiss slot slots req rest) := fun slot slots =>
      .of_eq rfl rfl rfl rfl rfl rfl
    cases processOneRequest_cases hwf hq with
    | hit _ eq =>
      rw [eq]
      exact .of_eq rfl rfl rfl rfl rfl rfl
    | coalesced _ slot _ _ eq =>
      rw [eq]
      exact .of_eq rfl rfl rfl rfl rfl rfl
    | full _ _ _ eq =>
      rw [eq]
      exact .refl c
    | burst _ _ slot slots _ _ eq =>
      rw [eq]
      exact (hopen slot slots).trans (draws_issueBurst _ slot req)
    | blocks _ _ slot slots _ _ eq =>
      rw [eq]
      have hmode : ∀ po, Draws (c.openMiss slot slots req rest)
          ((c.openMiss slot slots req rest).setPending slot po) := fun po =>
        .of_eq rfl rfl rfl rfl rfl rfl
      exact (hopen slot slots).trans ((hmode _).trans (draws_issueBlocks _ slot))

theorem draws_cycle {c : Cache} (hwf : c.SlotsWF) : Draws c c.cycle := by
  have hcont : c.continueIssues.SlotsWF ∧ Draws c c.continueIssues :=
    continueIssues_induction (P := fun d => d.SlotsWF ∧ Draws c d) continueIssue_activeSlots
      (fun d s hs hd => ⟨hd.1.continueIssue hs, hd.2.trans (draws_continueIssue d s)⟩) ⟨hwf, .refl c⟩
  have key : c.continueIssues.processRequests.SlotsWF ∧ Draws c c.continueIssues.processRequests :=
    processRequests_induction (P := fun d => d.SlotsWF ∧ Draws c d)
      (fun d _ hd => ⟨hd.1.processOneRequest, hd.2.trans (draws_processOneRequest hd.1)⟩) hcont
  exact key.2

/-- What `fill` takes from `_wb_pool` and queues: nothing, or one buffer for a writeback. -/
inductive FillPools (c d : Cache) : Prop
  | none (wbPoolFree : d.wbPoolFree = c.wbPoolFree) (fallbacks : d.fallbacks = c.fallbacks)
      (wbQ : d.wbQ = c.wbQ)
  | one (m : MemoryAccess) (wbPoolFree : d.wbPoolFree = c.wbPoolAlloc.2.wbPoolFree)
      (fallbacks : d.fallbacks = c.wbPoolAlloc.2.fallbacks) (wbQ : d.wbQ = c.wbQ ++ [m])
      (ptr : m.ptr = c.wbPoolAlloc.1)

theorem writeback_pools (c : Cache) (si w : Nat) : FillPools c (c.writeback si w) := by
  by_cases hd : (((c.sets si).ways w).valid && ((c.sets si).ways w).dirty) = true
  · cases hf : c.wbPoolFree with
    | nil =>
      refine .one _ ?_ ?_ (by simp [writeback, wbPoolAlloc, hd, hf, setSet]; rfl) ?_ <;>
        simp [writeback, wbPoolAlloc, hd, hf, setSet]
    | cons i rest =>
      refine .one _ ?_ ?_ (by simp [writeback, wbPoolAlloc, hd, hf, setSet]; rfl) ?_ <;>
        simp [writeback, wbPoolAlloc, hd, hf, setSet]
  · refine .none ?_ ?_ ?_ <;> simp [writeback, hd, setSet]

theorem fill_pools (c : Cache) (a : AddrType) (wr : Bool) (k : BitVec 32) :
    FillPools c (c.fill a wr k) := by
  unfold fill
  dsimp only
  split
  · exact .none rfl rfl rfl
  · split
    · obtain ⟨hw, hf, hq⟩ | ⟨m, hw, hf, hq, hptr⟩ :=
        writeback_pools c (setIndex a) (c.sets (setIndex a)).lruWay
      · exact .none hw hf hq
      · exact .one m hw hf hq hptr
    · exact .none rfl rfl rfl

theorem supplied_fill (c : Cache) (a : AddrType) (wr : Bool) (k : BitVec 32) :
    Supplied c (c.fill a wr k) := by
  obtain ⟨-, -, -, -, hm, -, hp, hd, -⟩ := fill_frame c a wr k
  cases fill_pools c a wr k with
  | none hw hf hq => exact supplied_of_eq hp hw hd hf hm hq
  | one m hw hf hq hptr =>
    cases hfree : c.wbPoolFree with
    | cons idx rest =>
      simp only [wbPoolAlloc, hfree] at hptr hw hf
      refine ⟨0, hf, List.perm_iff_count.mpr fun p => ?_⟩
      simp only [stock, hp, hw, hd, hm, hq, hfree, hptr, List.map_append, List.map_cons,
        List.map_nil, List.count_append, List.count_cons, List.count_nil, List.range'_zero]
      omega
    | nil =>
      simp only [wbPoolAlloc, hfree] at hptr hw hf
      refine ⟨1, hf, List.perm_iff_count.mpr fun p => ?_⟩
      simp only [stock, hp, hw, hd, hm, hq, hfree, hptr, List.map_append, List.map_cons,
        List.map_nil, List.count_append, List.count_cons, List.count_nil, List.range'_one]
      omega

/-! ## Responses -/

/-- What a response does before its buffer is released: it may queue a writeback, and then it may issue
sub-requests. -/
theorem pushMemoryResponse_pools {c : Cache} (hwf : c.SlotsWF) (resp : MemoryAccess) :
    ∃ d e, FillPools c d ∧ d.deleted = c.deleted ∧ d.missQ = c.missQ ∧ Supplied c d ∧ Draws d e ∧
      c.pushMemoryResponse resp = e.poolRelease resp.ptr := by
  cases hact : (c.pending resp.id).active with
  | false =>
    exact ⟨c, c, .none rfl rfl rfl, rfl, rfl, supplied_of_eq rfl rfl rfl rfl rfl rfl, .refl c,
      pushMemoryResponse_ignored (.inl hact)⟩
  | true =>
    have hcount : ∀ (d : Cache) slot, Draws d (d.countReturn slot) := fun d slot =>
      .of_eq rfl rfl rfl rfl rfl rfl
    have hreissue : ∀ (d : Cache) slot, Draws d (d.reissue slot) := by
      intro d slot
      unfold reissue
      split
      · exact draws_issueBlocks d slot
      · exact .refl d
    have hcomplete : ∀ (d : Cache) slot, Draws d (d.complete slot) := by
      intro d slot
      unfold complete freePendingSlot
      dsimp only
      split
      · split <;> exact .of_eq rfl rfl rfl rfl rfl rfl
      · exact .refl d
    refine ⟨_, _, fill_pools c (blockBase resp.dramAddress) (c.pending resp.id).isWrite
      (c.pending resp.id).coreId, by simp, by simp, supplied_fill _ _ _ _, ?_,
      pushMemoryResponse_counted hact (hwf.lt ((hwf.active _).mp hact))⟩
    exact (hcount _ _).trans ((hreissue _ _).trans (hcomplete _ _))

/-- A released buffer is on the free list of `_pool` or deleted. -/
theorem stock_poolRelease (c : Cache) (p : MemoryPtr) :
    (stock (c.poolRelease p)).Perm (p :: stock c) := by
  refine List.perm_iff_count.mpr fun x => ?_
  cases p <;>
    simp only [stock, poolRelease, List.map_cons, List.count_append, List.count_cons,
      List.count_nil] <;>
    omega

theorem buffers_add (n k : Nat) :
    buffers (n + k) = buffers n ++ (List.range' n k).map .fallback := by
  have hrange : List.range (n + k) = List.range n ++ List.range' n k := by
    rw [List.range_eq_range', List.range_eq_range', ← List.range'_append_1, Nat.zero_add]
  rw [buffers, hrange, List.map_append, ← List.append_assoc, buffers]

theorem mem_buffers {n : Nat} {p : MemoryPtr} : p ∈ buffers n ↔
    (∃ i < BLOCK_POOL_SIZE, p = .pool i) ∨ (∃ i < WB_POOL_SIZE, p = .wbPool i) ∨
      ∃ k < n, p = .fallback k := by
  simp only [buffers, List.mem_append, List.mem_map, List.mem_range, eq_comm (b := p), or_assoc]

theorem nodup_buffers (n : Nat) : (buffers n).Nodup := by
  have hmap : ∀ (f : Nat → MemoryPtr) (m : Nat), Function.Injective f →
      ((List.range m).map f).Nodup := fun f m hf => List.nodup_range.map hf
  refine ((hmap _ _ ?_).append (hmap _ _ ?_) ?_).append (hmap _ _ ?_) ?_
  · exact fun i j h => by injection h
  · exact fun i j h => by injection h
  · intro p hp hq
    obtain ⟨i, -, rfl⟩ := List.mem_map.mp hp
    obtain ⟨j, -, hj⟩ := List.mem_map.mp hq
    cases hj
  · exact fun i j h => by injection h
  · intro p hp hq
    obtain ⟨k, -, rfl⟩ := List.mem_map.mp hq
    rcases List.mem_append.mp hp with hp | hp
    · obtain ⟨j, -, hj⟩ := List.mem_map.mp hp
      cases hj
    · obtain ⟨j, -, hj⟩ := List.mem_map.mp hp
      cases hj

end Cache

namespace Bank

open Cache

/-- The buffers that memory holds. -/
def inMemory (b : Bank) : List MemoryPtr := b.missMem.map (·.ptr) ++ b.wbMem.map (·.ptr)

/-- The buffers on their way to memory or there. -/
def flying (b : Bank) : List MemoryPtr :=
  b.l2.missQ.map (·.ptr) ++ b.l2.wbQ.map (·.ptr) ++ b.inMemory

/-- Every buffer is in one place, and no sub-request is in a buffer of `_wb_pool`. -/
structure Stocked (b : Bank) : Prop where
  all : (stock b.l2 ++ b.inMemory).Perm (buffers b.l2.fallbacks)
  missPtr : ∀ m ∈ b.l2.missQ ++ b.missMem, ∀ i, m.ptr ≠ .wbPool i

theorem stocked_init : Stocked {} where
  all := by
    refine List.perm_iff_count.mpr fun p => ?_
    simp only [stock, buffers, inMemory, List.count_append, List.map_reverse, List.count_reverse,
      List.map_nil, List.count_nil, List.range_zero, Nat.add_zero]
  missPtr m hm := by simp at hm

theorem Stocked.supply {b : Bank} (h : Stocked b) {d : Cache} (hs : Supplied b.l2 d) :
    (stock d ++ b.inMemory).Perm (buffers d.fallbacks) := by
  obtain ⟨k, hk, hperm⟩ := hs
  rw [hk, buffers_add]
  refine (hperm.append_right _).trans ?_
  rw [List.append_assoc]
  refine (List.perm_append_comm.append_left _).trans ?_
  rw [← List.append_assoc]
  exact h.all.append_right _

/-- The answer to an access `m` of memory; `miss` and `wb` are what memory holds afterwards. -/
theorem Stocked.respond {b : Bank} (hI : Inv b) (h : Stocked b) {m : MemoryAccess}
    {miss wb : List MemoryAccess}
    (hmem : b.inMemory.Perm (m.ptr :: (miss.map (·.ptr) ++ wb.map (·.ptr))))
    (hmiss : ∀ x ∈ miss, x ∈ b.missMem) :
    Stocked { b with l2 := b.l2.pushMemoryResponse m.answered, missMem := miss, wbMem := wb } := by
  obtain ⟨d, e, -, -, hdq, hsup, hdraw, heq⟩ := pushMemoryResponse_pools hI.slots m.answered
  have hall := h.supply (hsup.trans hdraw.supplied)
  have hrel := stock_poolRelease e m.ptr
  have hfall : (e.poolRelease m.ptr).fallbacks = e.fallbacks := by
    cases m.ptr <;> rfl
  have hqueue : (e.poolRelease m.ptr).missQ = e.missQ := (poolRelease_frame e m.ptr).2.2.2.2.2.1
  rw [MemoryAccess.answered_ptr] at heq
  refine ⟨?_, fun x hx i => ?_⟩
  · show (stock (b.l2.pushMemoryResponse m.answered) ++ (miss.map (·.ptr) ++ wb.map (·.ptr))).Perm
      (buffers (b.l2.pushMemoryResponse m.answered).fallbacks)
    rw [heq, hfall]
    refine (hrel.append_right _).trans ?_
    rw [List.cons_append]
    refine List.perm_middle.symm.trans ?_
    exact (hmem.symm.append_left _).trans hall
  · rcases List.mem_append.mp hx with hx | hx
    · have hxe : x ∈ e.missQ := by
        rw [← hqueue, ← heq]
        exact hx
      rcases hdraw.missQ x hxe with hxd | hptr
      · exact h.missPtr x (List.mem_append_left _ (hdq ▸ hxd)) i
      · exact hptr i
    · exact h.missPtr x (List.mem_append_right _ (hmiss x hx)) i

theorem Stocked.step {b b' : Bank} {a : Act} (hI : Inv b) (h : Stocked b) (hs : b.step a = some b') :
    Stocked b' := by
  cases a with
  | pushRequest req =>
    obtain rfl := Option.some.inj hs
    exact ⟨h.all, h.missPtr⟩
  | popResponse =>
    obtain ⟨m, -, rfl⟩ := Option.map_eq_some_iff.mp hs
    exact ⟨h.all, h.missPtr⟩
  | cycle =>
    obtain rfl := Option.some.inj hs
    have hdraw := draws_cycle hI.slots
    refine ⟨h.supply hdraw.supplied, fun m hm i => ?_⟩
    rcases List.mem_append.mp hm with hm | hm
    · rcases hdraw.missQ m hm with hm | hptr
      · exact h.missPtr m (List.mem_append_left _ hm) i
      · exact hptr i
    · exact h.missPtr m (List.mem_append_right _ hm) i
  | popMissRequest =>
    obtain ⟨m, hm, rfl⟩ := Option.map_eq_some_iff.mp hs
    obtain ⟨rest, hq⟩ : ∃ rest, b.l2.missQ = m :: rest := List.head?_eq_some_iff.mp hm
    refine ⟨List.Perm.trans (List.perm_iff_count.mpr fun p => ?_) h.all, fun x hx i => ?_⟩
    · simp only [stock, inMemory, popMissRequest, hq, List.tail_cons, List.map_append, List.map_cons,
        List.map_nil, List.count_append, List.count_cons, List.count_nil]
      omega
    · refine h.missPtr x ?_ i
      simp only [popMissRequest, hq, List.tail_cons, List.mem_append, List.mem_cons] at hx ⊢
      tauto
  | popWbRequest =>
    obtain ⟨m, hm, rfl⟩ := Option.map_eq_some_iff.mp hs
    obtain ⟨rest, hq⟩ : ∃ rest, b.l2.wbQ = m :: rest := List.head?_eq_some_iff.mp hm
    refine ⟨List.Perm.trans (List.perm_iff_count.mpr fun p => ?_) h.all, h.missPtr⟩
    simp only [stock, inMemory, popWbRequest, hq, List.tail_cons, List.map_append, List.map_cons,
      List.map_nil, List.count_append, List.count_cons, List.count_nil]
    omega
  | answerMiss i =>
    obtain ⟨m, hm, rfl⟩ := Option.map_eq_some_iff.mp hs
    obtain ⟨hi, hmi⟩ := List.getElem?_eq_some_iff.mp hm
    have hperm : b.missMem.Perm (m :: b.missMem.eraseIdx i) := by
      rw [← hmi]
      exact (List.getElem_cons_eraseIdx_perm hi).symm
    exact h.respond hI ((hperm.map _).append_right _) fun x hx => List.mem_of_mem_eraseIdx hx
  | answerWb i =>
    obtain ⟨m, hm, rfl⟩ := Option.map_eq_some_iff.mp hs
    obtain ⟨hi, hmi⟩ := List.getElem?_eq_some_iff.mp hm
    have hperm : b.wbMem.Perm (m :: b.wbMem.eraseIdx i) := by
      rw [← hmi]
      exact (List.getElem_cons_eraseIdx_perm hi).symm
    refine h.respond hI ?_ fun x hx => hx
    exact ((hperm.map _).append_left _).trans List.perm_middle

/-! ## Ownership -/

/-- Each buffer of the two pools is on its own free list once, or in flight once; each object taken from
the heap is in flight once, or has been deleted once, and nothing else has. -/
structure Ownership (b : Bank) : Prop where
  poolFree : b.l2.poolFree.Nodup
  wbPoolFree : b.l2.wbPoolFree.Nodup
  deleted : b.l2.deleted.Nodup
  flying : b.flying.Nodup
  pool : ∀ i, i < BLOCK_POOL_SIZE ↔ i ∈ b.l2.poolFree ∨ .pool i ∈ b.flying
  poolApart : ∀ i ∈ b.l2.poolFree, .pool i ∉ b.flying
  wbPool : ∀ i, i < WB_POOL_SIZE ↔ i ∈ b.l2.wbPoolFree ∨ .wbPool i ∈ b.flying
  wbPoolApart : ∀ i ∈ b.l2.wbPoolFree, .wbPool i ∉ b.flying
  heap : ∀ k, k < b.l2.fallbacks ↔ .fallback k ∈ b.l2.deleted ∨ .fallback k ∈ b.flying
  heapApart : ∀ p ∈ b.l2.deleted, p ∉ b.flying
  heapOnly : ∀ p ∈ b.l2.deleted, ∃ k, p = .fallback k

/-- With every buffer in one place, ownership is a matter of what has been deleted. -/
theorem Stocked.owned_iff {b : Bank} (h : Stocked b) :
    Ownership b ↔ ∀ p ∈ b.l2.deleted, ∃ k, p = .fallback k := by
  refine ⟨Ownership.heapOnly, fun hheap => ?_⟩
  have hperm : (b.l2.poolFree.map MemoryPtr.pool ++ b.l2.wbPoolFree.map MemoryPtr.wbPool ++
      b.l2.deleted ++ b.flying).Perm (buffers b.l2.fallbacks) := by
    have hall := h.all
    unfold stock at hall
    rwa [List.append_assoc] at hall
  have hnodup := hperm.nodup_iff.mpr (nodup_buffers b.l2.fallbacks)
  obtain ⟨hkept, hflying, hdisj⟩ := List.nodup_append.mp hnodup
  obtain ⟨hfree, hdeleted, -⟩ := List.nodup_append.mp hkept
  obtain ⟨hpool, hwb, -⟩ := List.nodup_append.mp hfree
  have hmem : ∀ p, (p ∈ b.l2.poolFree.map MemoryPtr.pool ∨ p ∈ b.l2.wbPoolFree.map MemoryPtr.wbPool) ∨
      p ∈ b.l2.deleted ∨ p ∈ b.flying ↔ p ∈ buffers b.l2.fallbacks := by
    intro p
    rw [← hperm.mem_iff, List.mem_append, List.mem_append, List.mem_append, or_assoc (b := p ∈ b.l2.deleted)]
  have hnot : ∀ p, (∀ k, p ≠ .fallback k) → p ∉ b.l2.deleted := by
    intro p hp hdel
    obtain ⟨k, hk⟩ := hheap p hdel
    exact hp k hk
  refine ⟨hpool.of_map _, hwb.of_map _, hdeleted, hflying, fun i => ?_, fun i hi hf => ?_, fun i => ?_,
    fun i hi hf => ?_, fun k => ?_, fun p hp hf => ?_, hheap⟩
  · have hi := hmem (.pool i)
    rw [mem_buffers] at hi
    simpa [hnot (.pool i) (by simp)] using hi.symm
  · refine hdisj (.pool i) ?_ _ hf rfl
    simp [hi]
  · have hi := hmem (.wbPool i)
    rw [mem_buffers] at hi
    simpa [hnot (.wbPool i) (by simp)] using hi.symm
  · refine hdisj (.wbPool i) ?_ _ hf rfl
    simp [hi]
  · have hk := hmem (.fallback k)
    rw [mem_buffers] at hk
    simpa using hk.symm
  · exact hdisj p (List.mem_append_right _ hp) p hf rfl

/-- The step does not hand `_pool` a buffer of `_wb_pool`. -/
def ReturnsOwn (b : Bank) : Act → Prop
  | .answerWb i => ∀ m, b.wbMem[i]? = some m → ∀ k, m.ptr ≠ .wbPool k
  | _ => True

/-- A response deletes its buffer unless that lies in the storage of `_pool`. -/
theorem mem_deleted_pushMemoryResponse {c : Cache} (hwf : c.SlotsWF) (resp : MemoryAccess)
    (p : MemoryPtr) : p ∈ (c.pushMemoryResponse resp).deleted ↔
      p ∈ c.deleted ∨ p = resp.ptr ∧ ∀ i, p ≠ .pool i := by
  obtain ⟨d, e, -, hd, -, -, hdraw, heq⟩ := pushMemoryResponse_pools hwf resp
  rw [heq, ← hd, ← hdraw.deleted]
  cases hptr : resp.ptr with
  | pool i =>
    refine (or_iff_left ?_).symm
    rintro ⟨rfl, hnot⟩
    exact hnot i rfl
  | heap i | wbPool i | fallback i =>
    rw [poolRelease, List.mem_append, List.mem_singleton]
    · refine or_congr_right (iff_self_and.mpr ?_)
      rintro rfl j
      simp
    · simp

/-- An answer keeps ownership exactly when its buffer does not come from `_wb_pool`. -/
theorem Stocked.answer_iff {b : Bank} (hI : Inv b) (h : Stocked b) (hown : Ownership b)
    {m : MemoryAccess} (hm : m ∈ b.missMem ++ b.wbMem) :
    (∀ p ∈ (b.l2.pushMemoryResponse m.answered).deleted, ∃ k, p = .fallback k) ↔
      ∀ k, m.ptr ≠ .wbPool k := by
  have hptr : m.ptr ∈ buffers b.l2.fallbacks := by
    refine h.all.mem_iff.mp (List.mem_append_right _ ?_)
    rw [inMemory, ← List.map_append]
    exact List.mem_map_of_mem hm
  constructor
  · intro hall k heq
    have hdel := (mem_deleted_pushMemoryResponse hI.slots m.answered m.ptr).mpr
      (.inr ⟨rfl, fun i => by rw [heq]; simp⟩)
    obtain ⟨j, hj⟩ := hall m.ptr hdel
    rw [heq] at hj
    cases hj
  · intro hnot p hp
    rcases (mem_deleted_pushMemoryResponse hI.slots m.answered p).mp hp with hp | ⟨rfl, hpool⟩
    · exact hown.heapOnly p hp
    · rcases mem_buffers.mp hptr with ⟨i, -, hi⟩ | ⟨i, -, hi⟩ | ⟨k, -, hk⟩
      · exact absurd hi (hpool i)
      · exact absurd hi (hnot i)
      · exact ⟨k, hk⟩

theorem step_ownership_iff {b b' : Bank} {a : Act} (hI : Inv b) (h : Stocked b) (hown : Ownership b)
    (hs : b.step a = some b') : Ownership b' ↔ ReturnsOwn b a := by
  have h' := h.step hI hs
  have hheap := hown.heapOnly
  rw [h'.owned_iff]
  cases a with
  | pushRequest req =>
    obtain rfl := Option.some.inj hs
    exact iff_of_true hheap trivial
  | popMissRequest =>
    obtain ⟨m, -, rfl⟩ := Option.map_eq_some_iff.mp hs
    exact iff_of_true hheap trivial
  | popWbRequest =>
    obtain ⟨m, -, rfl⟩ := Option.map_eq_some_iff.mp hs
    exact iff_of_true hheap trivial
  | popResponse =>
    obtain ⟨m, -, rfl⟩ := Option.map_eq_some_iff.mp hs
    exact iff_of_true hheap trivial
  | cycle =>
    obtain rfl := Option.some.inj hs
    refine iff_of_true (fun p hp => hheap p ?_) trivial
    rw [← (draws_cycle hI.slots).deleted]
    exact hp
  | answerMiss i =>
    obtain ⟨m, hm, rfl⟩ := Option.map_eq_some_iff.mp hs
    have hmem : m ∈ b.missMem := List.mem_of_getElem? hm
    refine iff_of_true ?_ trivial
    exact (h.answer_iff hI hown (List.mem_append_left _ hmem)).mpr
      (h.missPtr m (List.mem_append_right _ hmem))
  | answerWb i =>
    obtain ⟨m, hm, rfl⟩ := Option.map_eq_some_iff.mp hs
    have hiff := h.answer_iff hI hown (List.mem_append_right _ (List.mem_of_getElem? hm))
    refine hiff.trans ⟨fun hnot m' hm' => ?_, fun hall => hall m hm⟩
    obtain rfl := Option.some.inj (hm.symm.trans hm')
    exact hnot

/-- The buffers of a bank are where they belong in every state of a run exactly when no completed
writeback hands back a buffer of `_wb_pool`. -/
theorem ownership_iff {t : List (Bank × Act)} {b : Bank} (run : Run t b) :
    Machine.Always Ownership t b ↔ Machine.EachStep ReturnsOwn t := by
  have key := Machine.Run.always_iff_eachStep (I := fun b => Inv b ∧ Stocked b) (P := Ownership)
    (R := fun _ _ => True) (C := ReturnsOwn) run ⟨inv_init, stocked_init⟩
    (fun _ _ _ h hs => ⟨h.1.step hs, h.2.step h.1 hs⟩)
    (stocked_init.owned_iff.mpr (by simp))
    fun b a b' h hown hs => by rw [and_iff_left trivial]; exact step_ownership_iff h.1 h.2 hown hs
  rw [← key]
  exact (and_iff_left fun _ _ => trivial).symm

/-! ## A completed writeback -/

/-- The new writebacks between two states of a bank take their buffers from `_wb_pool` while it has
some, at most one in a step. -/
def TakesWb (c d : Cache) : Prop :=
  c.wbPoolFree.length ≤ d.wbPoolFree.length + 1 ∧
    (c.wbPoolFree ≠ [] → ∀ m ∈ d.wbQ, m ∈ c.wbQ ∨ ∃ i, m.ptr = .wbPool i)

theorem takesWb_of_eq {c d : Cache} (hw : d.wbPoolFree = c.wbPoolFree) (hq : ∀ m ∈ d.wbQ, m ∈ c.wbQ) :
    TakesWb c d := ⟨by rw [hw]; exact Nat.le_succ _, fun _ m hm => .inl (hq m hm)⟩

theorem takesWb_pushMemoryResponse {c : Cache} (hwf : c.SlotsWF) (resp : MemoryAccess) :
    TakesWb c (c.pushMemoryResponse resp) := by
  obtain ⟨d, e, hfill, -, -, -, hdraw, heq⟩ := pushMemoryResponse_pools hwf resp
  have hfree : (c.pushMemoryResponse resp).wbPoolFree = d.wbPoolFree := by
    rw [heq, ← hdraw.wbPoolFree]
    cases resp.ptr <;> rfl
  have hqueue : (c.pushMemoryResponse resp).wbQ = d.wbQ := by
    rw [heq, ← hdraw.wbQ]
    exact (poolRelease_frame e resp.ptr).2.2.2.2.2.2.1
  cases hfill with
  | none hw _ hq =>
    exact takesWb_of_eq (hfree.trans hw) fun m hm => by rwa [hqueue, hq] at hm
  | one w hw _ hq hptr =>
    unfold TakesWb
    rw [hfree, hqueue, hw, hq]
    cases hc : c.wbPoolFree with
    | nil => simp [wbPoolAlloc, hc]
    | cons idx rest =>
      simp only [wbPoolAlloc, hc] at hptr ⊢
      refine ⟨le_rfl, fun _ m hm => ?_⟩
      rw [List.mem_append, List.mem_singleton] at hm
      rcases hm with hm | rfl
      · exact .inl hm
      · exact .inr ⟨idx, hptr⟩

theorem takesWb_step {b b' : Bank} {a : Act} (hI : Inv b) (hs : b.step a = some b') :
    TakesWb b.l2 b'.l2 := by
  cases a with
  | pushRequest req =>
    obtain rfl := Option.some.inj hs
    exact takesWb_of_eq rfl fun _ hm => hm
  | cycle =>
    obtain rfl := Option.some.inj hs
    have hdraw := draws_cycle hI.slots
    exact takesWb_of_eq hdraw.wbPoolFree fun m hm => hdraw.wbQ ▸ hm
  | popMissRequest =>
    obtain ⟨m, -, rfl⟩ := Option.map_eq_some_iff.mp hs
    exact takesWb_of_eq rfl fun _ hm => hm
  | popWbRequest =>
    obtain ⟨m, -, rfl⟩ := Option.map_eq_some_iff.mp hs
    exact takesWb_of_eq rfl fun _ hm => List.mem_of_mem_tail hm
  | answerMiss i | answerWb i =>
    obtain ⟨m, -, rfl⟩ := Option.map_eq_some_iff.mp hs
    exact takesWb_pushMemoryResponse hI.slots _
  | popResponse =>
    obtain ⟨m, -, rfl⟩ := Option.map_eq_some_iff.mp hs
    exact takesWb_of_eq rfl fun _ hm => hm

/-- What memory holds of the writebacks comes from the queue. -/
theorem wbMem_step {b b' : Bank} {a : Act} (hs : b.step a = some b') :
    ∀ m ∈ b'.wbMem, m ∈ b.l2.wbQ ++ b.wbMem := by
  intro x hx
  cases a with
  | pushRequest req =>
    obtain rfl := Option.some.inj hs
    exact List.mem_append_right _ hx
  | cycle =>
    obtain rfl := Option.some.inj hs
    exact List.mem_append_right _ hx
  | popWbRequest =>
    obtain ⟨m, hm, rfl⟩ := Option.map_eq_some_iff.mp hs
    rcases List.mem_append.mp hx with hx | hx
    · exact List.mem_append_right _ hx
    · obtain rfl := List.mem_singleton.mp hx
      exact List.mem_append_left _ (List.mem_of_mem_head? hm)
  | answerWb i =>
    obtain ⟨m, -, rfl⟩ := Option.map_eq_some_iff.mp hs
    exact List.mem_append_right _ (List.mem_of_mem_eraseIdx hx)
  | popMissRequest | answerMiss i | popResponse =>
    obtain ⟨m, -, rfl⟩ := Option.map_eq_some_iff.mp hs
    exact List.mem_append_right _ hx

/-- In the first steps of a run every writeback gets a buffer of `_wb_pool`. -/
theorem Run.wbPool {t : List (Bank × Act)} {b : Bank} (run : Run t b) :
    WB_POOL_SIZE ≤ b.l2.wbPoolFree.length + t.length ∧
      (t.length ≤ WB_POOL_SIZE → ∀ m ∈ b.l2.wbQ ++ b.wbMem, ∃ i, m.ptr = .wbPool i) := by
  induction run with
  | nil => exact ⟨by simp, by simp⟩
  | @snoc h b a b' before step ih =>
    obtain ⟨hlen, hptr⟩ := ih
    obtain ⟨htaken, hnew⟩ := takesWb_step (Run.inv before) step
    rw [List.length_append, List.length_singleton]
    refine ⟨by omega, fun hfew m hm => ?_⟩
    have hold := hptr (by omega)
    have hfree : b.l2.wbPoolFree ≠ [] := by
      intro hnil
      rw [hnil, List.length_nil] at hlen
      omega
    rcases List.mem_append.mp hm with hm | hm
    · rcases hnew hfree m hm with hm | hwb
      · exact hold m (List.mem_append_left _ hm)
      · exact hwb
    · exact hold m (wbMem_step step m hm)

/-- The completed writeback deletes a buffer of `_wb_pool`. -/
theorem evictingRun_deletes : ¬ ∀ t b, Run t b → Machine.Always Ownership t b := by
  intro hall
  obtain ⟨b, b', hrun, hstep, -⟩ := evictingRun_reaches
  obtain ⟨t, hacts, run⟩ := Machine.Run.of_foldlM hrun
  obtain ⟨w, hw, -⟩ := Option.map_eq_some_iff.mp hstep
  have hlen : t.length ≤ WB_POOL_SIZE := by
    rw [← List.length_map (f := Prod.snd), hacts]
    decide
  obtain ⟨i, hi⟩ := (Run.wbPool run).2 hlen w (List.mem_append_right _ (List.mem_of_getElem? hw))
  have hinv := Run.inv run
  have hown := hall t b run
  have hstocked : Stocked b := (Machine.Run.invariant (P := fun b => Inv b ∧ Stocked b) run
    ⟨inv_init, stocked_init⟩ fun _ _ _ h hs => ⟨h.1.step hs, h.2.step h.1 hs⟩).2
  have hnext := (hall _ _ (run.snoc hstep)).2
  exact (step_ownership_iff hinv hstocked hown.2 hstep).mp hnext w hw i hi

/-- A run that fetches a block and loses no buffer. -/
theorem ownership_iff_fetch : ∃ t b, Run t b ∧
    (Machine.Always Ownership t b ↔ Machine.EachStep ReturnsOwn t) := by
  obtain ⟨b, hrun, -⟩ := fetch_idle idle_init (by decide) (by decide)
    (init_not_resident readOther.dramAddress)
  obtain ⟨t, -, run⟩ := Machine.Run.of_foldlM hrun
  exact ⟨t, b, run, ownership_iff run⟩

end Bank

end OnnxSim
