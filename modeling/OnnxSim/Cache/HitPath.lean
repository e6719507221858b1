import OnnxSim.Cache.Fetch

/-!
# The hit path on multi-block objects

`process_one_request` answers a request on the hit path when the block of its first byte is
resident. For an object inside one block this is what the miss path waits for. For an object that
reaches beyond the block of its first byte it is not: a bank that holds only that block answers the
request all the same.
-/

namespace OnnxSim

/-- The address of byte `k` of the object of `req`. -/
def MemoryAccess.byte (req : MemoryAccess) (k : Nat) : AddrType :=
  req.dramAddress + BitVec.ofNat 64 k

namespace Cache

/-- What the miss path would have waited for: every block that the object of `req` overlaps is
resident when the request is answered, and dirty afterwards if it is a write. -/
def HitAgrees (c : Cache) (req : MemoryAccess) : Prop :=
  ∀ k, k < req.objectSize → c.Resident (req.byte k) ∧
    (req.write = true → c.processOneRequest.2.Dirty (req.byte k))

/-- The object of `req` does not reach beyond the block of its first byte. -/
def InOneBlock (req : MemoryAccess) : Prop :=
  req.dramAddress.toNat % BLOCK_SIZE + req.objectSize ≤ BLOCK_SIZE

instance (req : MemoryAccess) : Decidable (InOneBlock req) := inferInstanceAs (Decidable (_ ≤ _))

theorem byte_sameBlock {req : MemoryAccess} (h : InOneBlock req) {k : Nat}
    (hk : k < req.objectSize) : SameBlock (req.byte k) req.dramAddress := by
  unfold InOneBlock BLOCK_SIZE at h
  have hlt := req.dramAddress.isLt
  unfold SameBlock MemoryAccess.byte
  rw [BitVec.toNat_add, BitVec.toNat_ofNat]
  omega

/-- The first byte of the next block. -/
theorem next_not_sameBlock (a : AddrType) :
    ¬ SameBlock (a + BitVec.ofNat 64 (BLOCK_SIZE - a.toNat % BLOCK_SIZE)) a := by
  have hlt := a.isLt
  unfold SameBlock BLOCK_SIZE
  rw [BitVec.toNat_add, BitVec.toNat_ofNat]
  omega

theorem hitAgrees_of_inOneBlock {c : Cache} (hl : c.SetsWF) (hs : c.SlotsWF) {req : MemoryAccess}
    (hreq : c.inQ.head? = some req) (hit : c.checkHit req.dramAddress = true)
    (h : InOneBlock req) : HitAgrees c req := by
  intro k hk
  have hsame := byte_sameBlock h hk
  obtain ⟨rest, hq⟩ : ∃ rest, c.inQ = req :: rest := by
    cases hq : c.inQ with
    | nil => simp [hq] at hreq
    | cons r rest =>
      rw [hq] at hreq
      exact ⟨rest, by rw [Option.some.inj hreq]⟩
  refine ⟨?_, fun hw => ?_⟩
  · rw [Resident, line_congr c hsame]
    exact (checkHit_iff c _).mp hit
  · cases processOneRequest_cases hs hq with
    | hit hit' eq =>
      rw [eq]
      exact answerHit_dirty (c := { c with inQ := rest }) hl hit' hw hsame
    | coalesced miss | full miss | burst miss | blocks miss =>
      rw [hit] at miss
      cases miss

/-- The reachable states in which the hit path answers `req`. -/
def HitPoint (req : MemoryAccess) (c : Cache) : Prop :=
  ∃ t b, Bank.Run t b ∧ c ∈ b.l2.processPoints ∧ c.inQ.head? = some req ∧
    c.checkHit req.dramAddress = true

theorem HitPoint.wf {req : MemoryAccess} {c : Cache} (h : HitPoint req c) :
    c.SetsWF ∧ c.SlotsWF := by
  obtain ⟨t, b, run, hc, -⟩ := h
  have hwf : b.l2.SetsWF ∧ b.l2.SlotsWF :=
    run.l2_invariant (P := fun c => c.SetsWF ∧ c.SlotsWF) ⟨setsWF_init, slotsWF_init⟩
      fun c op h => ⟨step_setsWF h.1 h.2 op, h.2.step op⟩
  refine processPoints_forall (P := fun c => c.SetsWF ∧ c.SlotsWF)
    (fun h => ⟨(continueIssues_keeps _).wf h.1, h.2.continueIssues⟩)
    (fun d h => ⟨(processOneRequest_keeps h.2).wf h.1, h.2.processOneRequest⟩) hwf c hc

/-- The read that brings in the block of the first byte of `req`, and nothing else. -/
def firstByte (req : MemoryAccess) : MemoryAccess :=
  { req with objectSize := 1, write := false }

/-- A bank that holds the block of the first byte of `req` alone answers `req` on the hit path. -/
theorem exists_hitPoint (req : MemoryAccess) :
    ∃ c, HitPoint req c ∧ ∀ a, c.Resident a → SameBlock a req.dramAddress := by
  have hnone : ∀ a, init.line a = none := fun a => by
    simpa [Resident] using init_not_resident a
  have hmiss := init_not_resident (firstByte req).dramAddress
  have hone : nBlocks (firstByte req).objectSize = 1 := show nBlocks 1 = 1 by decide
  have hsmall : (firstByte req).objectSize < LARGE_OBJ_THRESHOLD := show 1 < _ by decide
  obtain ⟨b, hrun, hidle, -, hfill⟩ := Bank.fetch_idle Bank.idle_init hone hsmall hmiss
  have hblock : ∀ a, SameBlock a (blockBase (firstByte req).dramAddress) ↔
      SameBlock a req.dramAddress :=
    fun a => ⟨fun h => h.trans (sameBlock_blockBase _),
      fun h => h.trans (sameBlock_blockBase _).symm⟩
  have honly : ∀ a, b.l2.Resident a → SameBlock a req.dramAddress := by
    intro a ha
    rw [← hblock]
    by_contra hne
    obtain ⟨hlines, -⟩ | ⟨v, e, -, hv, -⟩ := hfill.rest
    · rw [Resident, hlines a hne, show ({} : Bank).l2.line a = none from hnone a] at ha
      cases ha
    · rw [show ({} : Bank).l2.line v = none from hnone v] at hv
      cases hv
  have hres : b.l2.checkHit req.dramAddress = true := by
    obtain ⟨e, he, -⟩ := hfill.filled
    rw [checkHit_iff, Resident, line_congr _ ((hblock _).mpr rfl), he]
    rfl
  obtain ⟨t, -, run⟩ := Machine.Run.of_foldlM hrun
  have hq : (b.l2.pushRequest req).inQ = [req] := by simp [pushRequest, hidle.l2.inQ]
  have hslots : (b.l2.pushRequest req).SlotsWF := hidle.slots.step (.pushRequest req)
  have hpoint : b.l2.pushRequest req ∈ (b.l2.pushRequest req).processPoints := by
    cases processOneRequest_cases hslots hq with
    | hit _ eq =>
      exact (cycle_single hslots hidle.l2.activeSlots (by rw [eq]) (by rw [eq]; rfl)).2
    | coalesced miss | full miss | burst miss | blocks miss =>
      rw [show (b.l2.pushRequest req).checkHit req.dramAddress = true from hres] at miss
      cases miss
  have hpush : Machine.partialDet Bank.step b (.pushRequest req)
      { b with l2 := b.l2.pushRequest req, pushed := b.pushed ++ [req] } := rfl
  refine ⟨b.l2.pushRequest req, ⟨_, _, run.snoc hpush, hpoint, ?_, hres⟩, honly⟩
  simp [hq]

/-- An object that reaches into a second block is answered while that block is absent. -/
theorem exists_partial_hit {req : MemoryAccess} (h : ¬ InOneBlock req) :
    ∃ c, HitPoint req c ∧ ¬ HitAgrees c req := by
  obtain ⟨c, hpoint, honly⟩ := exists_hitPoint req
  refine ⟨c, hpoint, fun hagree => ?_⟩
  unfold InOneBlock at h
  have hmod : req.dramAddress.toNat % BLOCK_SIZE < BLOCK_SIZE := Nat.mod_lt _ (by decide)
  have hres := (hagree (BLOCK_SIZE - req.dramAddress.toNat % BLOCK_SIZE) (by omega)).1
  exact next_not_sameBlock req.dramAddress (honly _ hres)

/-- The hit path agrees with the miss path on `req` in every reachable state exactly when the
object of `req` lies in one block. -/
theorem hitAgrees_iff (req : MemoryAccess) :
    (∀ c, HitPoint req c → HitAgrees c req) ↔ InOneBlock req := by
  constructor
  · intro hall
    by_contra hmulti
    obtain ⟨c, hpoint, hnot⟩ := exists_partial_hit hmulti
    exact hnot (hall c hpoint)
  · intro hone c hpoint
    obtain ⟨hl, hs⟩ := hpoint.wf
    obtain ⟨-, -, -, -, hreq, hit⟩ := hpoint
    exact hitAgrees_of_inOneBlock hl hs hreq hit hone

/-- A read of 256 bytes at address 0. -/
def twoBlockRead : MemoryAccess :=
  { ptr := .heap 0, id := 1, dramAddress := 0, size := 256, objectSize := 256, write := false,
    request := true, coreId := 0, bufferId := 0 }

/-- The read of two blocks is answered with only the first of them resident. -/
theorem twoBlockRead_partial_hit :
    ¬ ∀ c, HitPoint twoBlockRead c → HitAgrees c twoBlockRead := by
  have htwo : ¬ InOneBlock twoBlockRead := by decide
  obtain ⟨c, hpoint, hnot⟩ := exists_partial_hit htwo
  exact fun hall => hnot (hall c hpoint)

end Cache

end OnnxSim
