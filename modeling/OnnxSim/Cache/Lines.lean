import OnnxSim.Cache.Bank

/-!
# The lines of a bank

A bank whose sets are well formed is a partial map from 128-byte blocks to lines (`Cache.line`). The
operations that touch the sets are described by what they do to this map: a hit keeps it up to the
dirty bit of the block it hits, and `fill` adds the block of its address and drops at most one other
block, whose writeback it queues when the line was dirty (`fill_spec`).
-/

namespace OnnxSim

namespace CacheSet

theorem line_eq_some_iff {s : CacheSet} (h : s.WF) {tag : AddrType} {e : CacheEntry} :
    s.line tag = some e ↔
      ∃ w, w < NUM_WAYS ∧ s.ways w = e ∧ e.valid = true ∧ e.tag.setWidth 64 = tag := by
  unfold line
  constructor
  · intro hl
    split at hl
    · rename_i hlt
      obtain rfl := Option.some.inj hl
      obtain ⟨hv, ht⟩ := findTag_spec h hlt
      exact ⟨_, hlt, rfl, hv, ht⟩
    · cases hl
  · intro ⟨w, hw, he, hv, ht⟩
    subst he
    have hf := findTag_eq h hw hv ht
    rw [hf, if_pos hw]

theorem line_eq_none_iff {s : CacheSet} {tag : AddrType} :
    s.line tag = none ↔ ¬ s.findTag tag < NUM_WAYS := by
  unfold line
  split <;> simp_all

theorem line_touch (s : CacheSet) (w : Nat) (tag : AddrType) :
    (s.touch w).line tag = s.line tag := by
  unfold line
  rw [findTag_congr (s := s.touch w) (t := s) (by simp) (by simp), touch_ways]

/-- Writing the dirty bit of the way that holds `tag` changes no other line. -/
theorem line_setWay_dirty {s : CacheSet} (h : s.WF) {tag : AddrType} {d : Bool}
    (hlt : s.findTag tag < NUM_WAYS) (t : AddrType) :
    (s.setWay (s.findTag tag) { s.ways (s.findTag tag) with dirty := d }).line t =
      if t = tag then some { s.ways (s.findTag tag) with dirty := d } else s.line t := by
  have hfind : ∀ t, (s.setWay (s.findTag tag) { s.ways (s.findTag tag) with dirty := d }).findTag t
      = s.findTag t := by
    intro t
    refine findTag_congr (setWay_validMask s _ _) (fun v => ?_) t
    by_cases hv : v = s.findTag tag
    · subst hv; simp
    · simp [hv]
  by_cases ht : t = tag
  · subst ht
    simp [line, hfind, hlt]
  · rw [if_neg ht]
    unfold line
    rw [hfind]
    split
    · rename_i hlt'
      have hne : s.findTag t ≠ s.findTag tag := by
        intro heq
        have h1 := (findTag_spec h hlt').2
        rw [heq, (findTag_spec h hlt).2] at h1
        exact ht h1.symm
      simp [hne]
    · rfl

/-- The set after `writeback` and `clear_valid` of way `w`. -/
theorem WF.evict {s : CacheSet} (h : s.WF) (w : Nat) : ((s.setWay w .reset).clearValid w).WF := by
  refine ⟨fun v hv => ?_, fun u v hu hv huv hvv htag => ?_⟩
  · rw [clearValid_getLsbD _ hv]
    by_cases hvw : v = w
    · subst hvw; simp [CacheEntry.reset]
    · simpa [hvw] using h.mask v hv
  · have key : ∀ x, (((s.setWay w .reset).clearValid w).ways x).valid = true →
        x ≠ w ∧ ((s.setWay w .reset).clearValid w).ways x = s.ways x := by
      intro x hx
      by_cases hxw : x = w
      · subst hxw
        simp [CacheEntry.reset] at hx
      · exact ⟨hxw, by simp [hxw]⟩
    obtain ⟨-, eu⟩ := key u huv
    obtain ⟨-, ev⟩ := key v hvv
    rw [eu] at huv htag
    rw [ev] at hvv htag
    exact h.tags u v hu hv huv hvv htag

theorem line_evict {s : CacheSet} (h : s.WF) {w : Nat} (hw : w < NUM_WAYS)
    (hv : (s.ways w).valid = true) (t : AddrType) :
    ((s.setWay w .reset).clearValid w).line t =
      if t = (s.ways w).tag.setWidth 64 then none else s.line t := by
  apply Option.ext
  intro e
  rw [line_eq_some_iff (h.evict w)]
  constructor
  · intro ⟨v, hvlt, he, hev, het⟩
    have hvw : v ≠ w := by
      intro heq
      subst heq he
      simp [CacheEntry.reset] at hev
    have he' : s.ways v = e := by simpa [hvw] using he
    have hne : t ≠ (s.ways w).tag.setWidth 64 := by
      intro heq
      subst he'
      exact hvw (h.tags v w hvlt hw hev hv (setWidth_tag_inj (het.trans heq)))
    rw [if_neg hne]
    exact (line_eq_some_iff h).mpr ⟨v, hvlt, he', hev, het⟩
  · intro hl
    split at hl
    · cases hl
    · rename_i hne
      obtain ⟨v, hvlt, he, hev, het⟩ := (line_eq_some_iff h).mp hl
      have hvw : v ≠ w := by
        intro heq
        subst heq he
        exact hne het.symm
      exact ⟨v, hvlt, by simpa [hvw] using he, hev, het⟩

section Install

variable {s : CacheSet} (h : s.WF) {w : Nat} (hw : w < NUM_WAYS) (hfree : (s.ways w).valid = false)
  {e : CacheEntry} (hev : e.valid = true) (hnew : s.line (e.tag.setWidth 64) = none)

include h hfree hev hnew in
/-- Installing a line for an absent tag in a free way keeps the set well formed. -/
theorem WF.install : (((s.setWay w e).setValid w).touch w).WF := by
  have habs : ∀ v, v < NUM_WAYS → (s.ways v).valid = true → (s.ways v).tag ≠ e.tag := by
    intro v hv hvv heq
    have : s.line (e.tag.setWidth 64) = some (s.ways v) :=
      (line_eq_some_iff h).mpr ⟨v, hv, rfl, hvv, by rw [heq]⟩
    rw [hnew] at this
    cases this
  apply WF.touch
  refine ⟨fun v hv => ?_, fun u v hu hv huv hvv htag => ?_⟩
  · rw [setValid_getLsbD _ hv]
    by_cases hvw : v = w
    · subst hvw; simp [hev]
    · simpa [hvw] using h.mask v hv
  · by_cases huw : u = w <;> by_cases hvw : v = w
    · rw [huw, hvw]
    · subst huw
      simp only [setValid_ways, setWay_ways, Function.update_self, ne_eq, hvw, not_false_eq_true,
        Function.update_of_ne] at huv hvv htag
      exact absurd htag.symm (habs v hv hvv)
    · subst hvw
      simp only [setValid_ways, setWay_ways, Function.update_self, ne_eq, huw, not_false_eq_true,
        Function.update_of_ne] at huv hvv htag
      exact absurd htag (habs u hu huv)
    · simp only [setValid_ways, setWay_ways, ne_eq, huw, hvw, not_false_eq_true,
        Function.update_of_ne] at huv hvv htag
      exact h.tags u v hu hv huv hvv htag

include h hw hfree hev hnew in
theorem line_install (t : AddrType) :
    (((s.setWay w e).setValid w).touch w).line t =
      if t = e.tag.setWidth 64 then some e else s.line t := by
  have hwf := WF.install h hfree hev hnew (w := w)
  apply Option.ext
  intro e'
  rw [line_eq_some_iff hwf]
  constructor
  · intro ⟨v, hvlt, he, hev', het⟩
    by_cases hvw : v = w
    · subst hvw
      have : e = e' := by simpa using he
      subst this
      rw [if_pos het.symm]
    · have he' : s.ways v = e' := by simpa [hvw] using he
      have hl : s.line t = some e' := (line_eq_some_iff h).mpr ⟨v, hvlt, he', hev', het⟩
      have hne : t ≠ e.tag.setWidth 64 := by
        intro heq
        rw [heq, hnew] at hl
        cases hl
      rw [if_neg hne, hl]
  · intro hl
    split at hl
    · rename_i heq
      obtain rfl := Option.some.inj hl
      exact ⟨w, hw, by simp, hev, heq.symm⟩
    · obtain ⟨v, hvlt, he, hev', het⟩ := (line_eq_some_iff h).mp hl
      have hvw : v ≠ w := by
        intro heq
        subst heq he
        rw [hfree] at hev'
        cases hev'
      exact ⟨v, hvlt, by simpa [hvw] using he, hev', het⟩

end Install

/-- A set without a free way has sixteen valid ways. -/
theorem valid_of_full {s : CacheSet} (h : s.WF) (hfull : s.freeWay = NUM_WAYS) {w : Nat}
    (hw : w < NUM_WAYS) : (s.ways w).valid = true := by
  cases hv : (s.ways w).valid with
  | true => rfl
  | false =>
    have hlt : s.freeWay < NUM_WAYS := firstWay_lt_iff.mpr ⟨w, hw, by simp [h.mask w hw, hv]⟩
    omega

theorem invalid_of_freeWay {s : CacheSet} (h : s.WF) (hlt : s.freeWay < NUM_WAYS) :
    (s.ways s.freeWay).valid = false := by
  have hp := firstWay_spec hlt
  simp only [Bool.not_eq_true'] at hp
  exact (h.mask _ hlt).symm.trans hp

end CacheSet

/-! ## Blocks of addresses -/

namespace Cache

theorem blockBase_eq_shift (a : AddrType) : blockBase a = (a >>> 7) <<< 7 := by
  apply BitVec.eq_of_getLsbD_eq
  intro i hi
  have h127 : (BitVec.ofNat 64 (BLOCK_SIZE - 1)).getLsbD i = decide (i < 7) := by
    rw [BitVec.getLsbD_ofNat]
    have : Nat.testBit (2 ^ 7 - 1) i = decide (i < 7) := Nat.testBit_two_pow_sub_one 7 i
    simpa [BLOCK_SIZE, hi] using this
  rw [blockBase, BitVec.getLsbD_and, BitVec.getLsbD_not, h127, BitVec.getLsbD_shiftLeft,
    BitVec.getLsbD_ushiftRight]
  by_cases hlt : i < 7
  · simp [hlt]
  · rw [show 7 + (i - 7) = i by omega]
    simp [hlt, hi]

@[simp] theorem blockBase_toNat (a : AddrType) : (blockBase a).toNat = a.toNat / 128 * 128 := by
  rw [blockBase_eq_shift, BitVec.toNat_shiftLeft, BitVec.toNat_ushiftRight, Nat.shiftLeft_eq,
    Nat.shiftRight_eq_div_pow]
  have := a.isLt
  omega

theorem tagBits_toNat (a : AddrType) : (tagBits a).toNat = a.toNat / 2 ^ 22 := by
  simp [tagBits, BLOCK_BITS, SET_BITS, Nat.shiftRight_eq_div_pow]

theorem setIndex_eq (a : AddrType) : setIndex a = a.toNat / 2 ^ 7 % 2 ^ 15 := by
  simp [setIndex, BLOCK_BITS, SET_BITS, Nat.shiftRight_eq_div_pow]

/-- The addresses `a` and `b` lie in one 128-byte block. -/
def SameBlock (a b : AddrType) : Prop := a.toNat / 128 = b.toNat / 128

instance (a b : AddrType) : Decidable (SameBlock a b) := inferInstanceAs (Decidable (_ = _))

theorem SameBlock.symm {a b : AddrType} (h : SameBlock a b) : SameBlock b a := Eq.symm h

theorem SameBlock.trans {a b c : AddrType} (h₁ : SameBlock a b) (h₂ : SameBlock b c) :
    SameBlock a c := Eq.trans h₁ h₂

/-- Set index and tag together name the block. -/
theorem sameBlock_iff {a b : AddrType} :
    SameBlock a b ↔ setIndex a = setIndex b ∧ tagBits a = tagBits b := by
  rw [← BitVec.toNat_inj (x := tagBits a), tagBits_toNat, tagBits_toNat, setIndex_eq, setIndex_eq]
  unfold SameBlock
  omega

theorem sameBlock_blockBase (a : AddrType) : SameBlock (blockBase a) a := by
  unfold SameBlock
  rw [blockBase_toNat]
  omega

theorem blockBase_eq_of_sameBlock {a b : AddrType} (h : SameBlock a b) :
    blockBase a = blockBase b := by
  apply BitVec.eq_of_toNat_eq
  unfold SameBlock at h
  rw [blockBase_toNat, blockBase_toNat, h]

@[simp] theorem setIndex_blockBase (a : AddrType) : setIndex (blockBase a) = setIndex a :=
  (sameBlock_iff.mp (sameBlock_blockBase a)).1

@[simp] theorem tagBits_blockBase (a : AddrType) : tagBits (blockBase a) = tagBits a :=
  (sameBlock_iff.mp (sameBlock_blockBase a)).2

/-- A tag fits the 42-bit field of an entry. -/
theorem setWidth_tagBits (a : AddrType) : ((tagBits a).setWidth 42).setWidth 64 = tagBits a := by
  apply BitVec.eq_of_toNat_eq
  rw [BitVec.toNat_setWidth, BitVec.toNat_setWidth, tagBits_toNat]
  have := a.isLt
  omega

/-- `writeback` rebuilds the block address from the stored tag and the set index. -/
theorem wbAddr_eq (a : AddrType) {tag : BitVec 42} (h : tag.setWidth 64 = tagBits a) :
    wbAddr tag (setIndex a) = blockBase a := by
  unfold wbAddr
  rw [h, blockBase_eq_shift]
  have hsi : setIndex a < 2 ^ 15 := Nat.mod_lt _ (by decide)
  apply BitVec.eq_of_getLsbD_eq
  intro i hi
  rw [BitVec.getLsbD_or, BitVec.getLsbD_shiftLeft, BitVec.getLsbD_shiftLeft,
    BitVec.getLsbD_shiftLeft, BitVec.getLsbD_ofNat, tagBits, BitVec.getLsbD_ushiftRight,
    BitVec.getLsbD_ushiftRight]
  simp only [BLOCK_BITS, SET_BITS, setIndex]
  rw [Nat.testBit_mod_two_pow, BitVec.testBit_toNat, BitVec.getLsbD_ushiftRight]
  by_cases h7 : i < 7
  · simp [h7, show i < 22 by omega]
  · by_cases h22 : i < 22
    · simp [h7, h22, hi, show i - 7 < 15 by omega, show i - 7 < 64 by omega]
    · rw [show 22 + (i - 22) = i by omega, show 7 + (i - 7) = i by omega]
      simp [h7, h22, hi, show ¬ i - 7 < 15 by omega]

/-- The address of the block with this tag and set index. -/
def blockOf (tag : BitVec 42) (si : Nat) : AddrType :=
  BitVec.ofNat 64 (tag.toNat * 2 ^ 22 + si * 2 ^ 7)

theorem blockOf_spec (tag : BitVec 42) {si : Nat} (hsi : si < 2 ^ 15) :
    setIndex (blockOf tag si) = si ∧ tagBits (blockOf tag si) = tag.setWidth 64 := by
  have htag := tag.isLt
  have hnat : (blockOf tag si).toNat = tag.toNat * 2 ^ 22 + si * 2 ^ 7 := by
    rw [blockOf, BitVec.toNat_ofNat]
    omega
  refine ⟨?_, BitVec.eq_of_toNat_eq ?_⟩
  · rw [setIndex_eq, hnat]
    omega
  · rw [tagBits_toNat, hnat, BitVec.toNat_setWidth]
    omega

theorem setIndex_lt (a : AddrType) : setIndex a < 2 ^ 15 := Nat.mod_lt _ (by decide)

/-! ## The frame of the line operations -/

@[simp] theorem setSet_frame (c : Cache) (si : Nat) (s : CacheSet) :
    (c.setSet si s).pending = c.pending ∧ (c.setSet si s).activeSlots = c.activeSlots ∧
      (c.setSet si s).activePending = c.activePending ∧ (c.setSet si s).inQ = c.inQ ∧
      (c.setSet si s).missQ = c.missQ ∧ (c.setSet si s).outQ = c.outQ ∧
      (c.setSet si s).poolFree = c.poolFree ∧ (c.setSet si s).deleted = c.deleted ∧
      (c.setSet si s).freeSlots = c.freeSlots ∧ (c.setSet si s).idToSlot = c.idToSlot :=
  ⟨rfl, rfl, rfl, rfl, rfl, rfl, rfl, rfl, rfl, rfl⟩

@[simp] theorem writeback_frame (c : Cache) (si w : Nat) :
    (c.writeback si w).pending = c.pending ∧ (c.writeback si w).activeSlots = c.activeSlots ∧
      (c.writeback si w).activePending = c.activePending ∧ (c.writeback si w).inQ = c.inQ ∧
      (c.writeback si w).missQ = c.missQ ∧ (c.writeback si w).outQ = c.outQ ∧
      (c.writeback si w).poolFree = c.poolFree ∧ (c.writeback si w).deleted = c.deleted ∧
      (c.writeback si w).freeSlots = c.freeSlots ∧ (c.writeback si w).idToSlot = c.idToSlot := by
  by_cases hd : (((c.sets si).ways w).valid && ((c.sets si).ways w).dirty) = true
  · cases hf : c.wbPoolFree <;> simp [writeback, wbPoolAlloc, hd, hf]
  · simp [writeback, hd]

@[simp] theorem fill_frame (c : Cache) (a : AddrType) (wr : Bool) (k : BitVec 32) :
    (c.fill a wr k).pending = c.pending ∧ (c.fill a wr k).activeSlots = c.activeSlots ∧
      (c.fill a wr k).activePending = c.activePending ∧ (c.fill a wr k).inQ = c.inQ ∧
      (c.fill a wr k).missQ = c.missQ ∧ (c.fill a wr k).outQ = c.outQ ∧
      (c.fill a wr k).poolFree = c.poolFree ∧ (c.fill a wr k).deleted = c.deleted ∧
      (c.fill a wr k).freeSlots = c.freeSlots ∧ (c.fill a wr k).idToSlot = c.idToSlot := by
  unfold fill
  dsimp only
  split
  · simp
  · split <;> simp

@[simp] theorem answerHit_frame (c : Cache) (req : MemoryAccess) :
    (c.answerHit req).pending = c.pending ∧ (c.answerHit req).activeSlots = c.activeSlots ∧
      (c.answerHit req).activePending = c.activePending ∧ (c.answerHit req).inQ = c.inQ ∧
      (c.answerHit req).missQ = c.missQ ∧ (c.answerHit req).wbQ = c.wbQ ∧
      (c.answerHit req).poolFree = c.poolFree ∧ (c.answerHit req).deleted = c.deleted ∧
      (c.answerHit req).freeSlots = c.freeSlots ∧ (c.answerHit req).idToSlot = c.idToSlot ∧
      (c.answerHit req).outQ = c.outQ ++ [req.answered] :=
  ⟨rfl, rfl, rfl, rfl, rfl, rfl, rfl, rfl, rfl, rfl, rfl⟩

/-! ## The bank as a map of lines -/

/-- Every set of the bank is well formed. -/
def SetsWF (c : Cache) : Prop := ∀ si, (c.sets si).WF

def line (c : Cache) (a : AddrType) : Option CacheEntry :=
  (c.sets (setIndex a)).line (tagBits a)

/-- The block of `a` is resident. -/
def Resident (c : Cache) (a : AddrType) : Prop := (c.line a).isSome

/-- The block of `a` is resident and its line is dirty. -/
def Dirty (c : Cache) (a : AddrType) : Prop := ∃ e, c.line a = some e ∧ e.dirty = true

theorem setsWF_init : init.SetsWF := fun _ => CacheSet.WF.empty

theorem checkHit_iff (c : Cache) (a : AddrType) : c.checkHit a = true ↔ c.Resident a := by
  unfold checkHit Resident line findWay CacheSet.line
  split <;> simp_all

theorem line_congr (c : Cache) {a b : AddrType} (h : SameBlock a b) : c.line a = c.line b := by
  obtain ⟨hs, ht⟩ := sameBlock_iff.mp h
  rw [line, line, hs, ht]

theorem Dirty.resident {c : Cache} {a : AddrType} (h : c.Dirty a) : c.Resident a := by
  obtain ⟨e, he, -⟩ := h
  rw [Resident, he]
  rfl

theorem Dirty.congr {c : Cache} {a b : AddrType} (h : SameBlock a b) (hd : c.Dirty a) :
    c.Dirty b := by
  obtain ⟨e, he, hd⟩ := hd
  exact ⟨e, (c.line_congr h) ▸ he, hd⟩

/-- Replacing one set by one with the lines `f`. -/
theorem line_setSet {c : Cache} {a : AddrType} {s : CacheSet} (b : AddrType) :
    (c.setSet (setIndex a) s).line b =
      if setIndex b = setIndex a then s.line (tagBits b) else c.line b := by
  unfold line setSet
  by_cases h : setIndex b = setIndex a
  · simp [h]
  · simp [h]

theorem SetsWF.setSet {c : Cache} (h : c.SetsWF) {i : Nat} {s : CacheSet} (hs : s.WF) :
    (c.setSet i s).SetsWF := by
  intro j
  by_cases hj : j = i
  · subst hj; simpa [Cache.setSet] using hs
  · simpa [Cache.setSet, hj] using h j

/-- The access `writeback` queues for the block of `v`. -/
structure IsWriteback (m : MemoryAccess) (v : AddrType) : Prop where
  address : m.dramAddress = blockBase v
  size : m.size = BLOCK_SIZE
  write : m.write = true
  id : m.id = 0

/-- The writebacks queued between `c` and `c'`: that of the block of `v` if its line was dirty. -/
def Queues (c c' : Cache) (v : AddrType) (dirty : Bool) : Prop :=
  (dirty = false ∧ c'.wbQ = c.wbQ) ∨
    (dirty = true ∧ ∃ m, c'.wbQ = c.wbQ ++ [m] ∧ IsWriteback m v)

theorem Queues.of_wbQ {c c' c'' : Cache} {v : AddrType} {dirty : Bool} (h : Queues c c' v dirty)
    (hq : c''.wbQ = c'.wbQ) : Queues c c'' v dirty := by
  unfold Queues at *
  rwa [hq]

/-- `fill` of the block of `a` from `c` to `c'`. Either no other block is touched, or the block of
some `v` is dropped, with its writeback queued exactly when its line was dirty. -/
structure FillSpec (c c' : Cache) (a : AddrType) (wr : Bool) : Prop where
  wf : c'.SetsWF
  filled : ∃ e, c'.line a = some e ∧ (e.dirty = true ↔ wr = true ∨ c.Dirty a)
  rest : ((∀ b, ¬ SameBlock b a → c'.line b = c.line b) ∧ c'.wbQ = c.wbQ) ∨
    ∃ v e, ¬ SameBlock v a ∧ c.line v = some e ∧
      (∀ b, ¬ SameBlock b a → c'.line b = if SameBlock b v then none else c.line b) ∧
      Queues c c' v e.dirty

theorem writeback_sets (c : Cache) (si w : Nat) :
    (c.writeback si w).sets = Function.update c.sets si ((c.sets si).setWay w .reset) := by
  by_cases hd : (((c.sets si).ways w).valid && ((c.sets si).ways w).dirty) = true
  · cases hf : c.wbPoolFree <;> simp [writeback, wbPoolAlloc, setSet, hd, hf]
  · simp [writeback, setSet, hd]

/-- A valid line is written back exactly when it is dirty, at the address of its block. -/
theorem writeback_queues {c : Cache} {i w : Nat} {v : AddrType}
    (hv : ((c.sets i).ways w).valid = true) (hsi : setIndex v = i)
    (htag : ((c.sets i).ways w).tag.setWidth 64 = tagBits v) :
    Queues c (c.writeback i w) v ((c.sets i).ways w).dirty := by
  subst hsi
  cases hd : ((c.sets (setIndex v)).ways w).dirty with
  | false => exact .inl ⟨rfl, by simp [writeback, hv, hd, setSet]⟩
  | true =>
    have haddr := wbAddr_eq v htag
    cases hf : c.wbPoolFree with
    | nil =>
      refine .inr ⟨rfl, _, by simp [writeback, wbPoolAlloc, hv, hd, hf, setSet]; rfl, ?_⟩
      exact ⟨haddr, rfl, rfl, rfl⟩
    | cons i rest =>
      refine .inr ⟨rfl, _, by simp [writeback, wbPoolAlloc, hv, hd, hf, setSet]; rfl, ?_⟩
      exact ⟨haddr, rfl, rfl, rfl⟩

section Fill

variable {c : Cache} (h : c.SetsWF) (a : AddrType) (wr : Bool) (k : BitVec 32)

include h in
/-- `fill` of a resident block. -/
theorem fill_resident (hres : c.Resident a) :
    FillSpec c (c.fill a wr k) a wr ∧ (c.fill a wr k).wbQ = c.wbQ := by
  have hlt : (c.sets (setIndex a)).findTag (tagBits a) < NUM_WAYS :=
    of_decide_eq_true ((checkHit_iff c a).mpr hres)
  have hs := h (setIndex a)
  generalize hw : (c.sets (setIndex a)).findTag (tagBits a) = w at hlt
  generalize hset : c.sets (setIndex a) = s at *
  have hline : c.line a = some (s.ways w) := by
    rw [line, hset, CacheSet.line, hw, if_pos hlt]
  cases wr with
  | false =>
    have hfill : c.fill a false k = c.setSet (setIndex a) (s.touch w) := by
      simp [fill, hset, hw, hlt]
    have hl : ∀ b, (c.fill a false k).line b = c.line b := by
      intro b
      rw [hfill, line_setSet, CacheSet.line_touch]
      split
      · rename_i hb
        rw [line, hb, hset]
      · rfl
    have hq : (c.fill a false k).wbQ = c.wbQ := by
      rw [hfill]
      rfl
    refine ⟨⟨hfill ▸ h.setSet (hs.touch w), ⟨s.ways w, (hl a).trans hline, ?_⟩, .inl ⟨?_, hq⟩⟩, hq⟩
    · simp [Dirty, hline]
    · exact fun b _ => hl b
  | true =>
    have hfill : c.fill a true k =
        c.setSet (setIndex a) ((s.setWay w { s.ways w with dirty := true }).touch w) := by
      simp [fill, hset, hw, hlt]
    subst hw
    have hq : (c.fill a true k).wbQ = c.wbQ := by
      rw [hfill]
      rfl
    refine ⟨⟨hfill ▸ h.setSet (hs.setWay_dirty.touch _),
      ⟨{ s.ways (s.findTag (tagBits a)) with dirty := true }, ?_, by simp⟩, .inl ⟨?_, hq⟩⟩, hq⟩
    · rw [hfill, line_setSet, if_pos rfl, CacheSet.line_touch, CacheSet.line_setWay_dirty hs hlt,
        if_pos rfl]
    · intro b hb
      rw [hfill, line_setSet]
      split
      · rename_i hsi
        rw [CacheSet.line_touch, CacheSet.line_setWay_dirty hs hlt, if_neg, line, hsi, hset]
        exact fun ht => hb (sameBlock_iff.mpr ⟨hsi, ht⟩)
      · rfl

/-- The line a fill installs. -/
def newLine (s : CacheSet) (w : Nat) : CacheEntry :=
  ({ s.ways w with tag := (tagBits a).setWidth 42, valid := true, dirty := wr } :
    CacheEntry).setCore k

theorem newLine_tag (s : CacheSet) (w : Nat) :
    (newLine a wr k s w).tag.setWidth 64 = tagBits a := setWidth_tagBits a

theorem newLine_valid (s : CacheSet) (w : Nat) : (newLine a wr k s w).valid = true := rfl

/-- Installing the block of `a` in a free way of its set. -/
theorem install_spec {c' : Cache} (h' : c'.SetsWF) {w : Nat} (hw : w < NUM_WAYS)
    (hfree : ((c'.sets (setIndex a)).ways w).valid = false) (hnew : c'.line a = none)
    {d : Cache}
    (hd : d = c'.setSet (setIndex a) ((((c'.sets (setIndex a)).setWay w
      (newLine a wr k (c'.sets (setIndex a)) w)).setValid w).touch w)) :
    d.SetsWF ∧ (∃ e, d.line a = some e ∧ e.dirty = wr) ∧
      (∀ b, ¬ SameBlock b a → d.line b = c'.line b) := by
  have hs := h' (setIndex a)
  have hnew' : (c'.sets (setIndex a)).line
      ((newLine a wr k (c'.sets (setIndex a)) w).tag.setWidth 64) = none := by
    rw [newLine_tag]
    exact hnew
  have hv := newLine_valid a wr k (c'.sets (setIndex a)) w
  have hl := CacheSet.line_install hs hw hfree hv hnew'
  subst hd
  refine ⟨h'.setSet (CacheSet.WF.install hs hfree hv hnew'),
    ⟨newLine a wr k (c'.sets (setIndex a)) w, ?_, rfl⟩, ?_⟩
  · rw [line_setSet, if_pos rfl, hl, newLine_tag, if_pos rfl]
  · intro b hb
    rw [line_setSet]
    split
    · rename_i hsi
      rw [hl, newLine_tag, if_neg, line, hsi]
      exact fun ht => hb (sameBlock_iff.mpr ⟨hsi, ht⟩)
    · rfl

include h in
/-- `fill` of an absent block into a set with a free way. -/
theorem fill_free (hres : c.line a = none)
    (hfree : (c.sets (setIndex a)).freeWay < NUM_WAYS) : FillSpec c (c.fill a wr k) a wr := by
  have hmiss := CacheSet.line_eq_none_iff.mp hres
  have hinv := CacheSet.invalid_of_freeWay (h (setIndex a)) hfree
  obtain ⟨hwf, ⟨e, he, hed⟩, hrest⟩ := install_spec a wr k h hfree hinv hres
    (d := c.fill a wr k) (by simp [fill, hmiss, Nat.ne_of_lt hfree, newLine])
  refine ⟨hwf, ⟨e, he, ?_⟩, .inl ⟨hrest, ?_⟩⟩
  · simp [hed, Dirty, hres]
  · simp [fill, hmiss, Nat.ne_of_lt hfree, setSet]

include h in
/-- `fill` of an absent block into a full set: the pseudo-LRU way is evicted first. -/
theorem fill_full (hres : c.line a = none)
    (hfull : (c.sets (setIndex a)).freeWay = NUM_WAYS) : FillSpec c (c.fill a wr k) a wr := by
  have hs := h (setIndex a)
  have hmiss := CacheSet.line_eq_none_iff.mp hres
  generalize hset : c.sets (setIndex a) = s at *
  have hlru := s.lruWay_lt
  have hvalid := CacheSet.valid_of_full hs hfull hlru
  generalize hw : s.lruWay = w at *
  -- the victim's block
  obtain ⟨hvsi, hvtag⟩ := blockOf_spec (s.ways w).tag (setIndex_lt a)
  generalize hv : blockOf (s.ways w).tag (setIndex a) = v at *
  have hvline : c.line v = some (s.ways w) := by
    rw [line, hvsi, hset, hvtag]
    exact (CacheSet.line_eq_some_iff hs).mpr ⟨w, hlru, rfl, hvalid, rfl⟩
  -- the bank with the way emptied
  generalize hc1 : (c.writeback (setIndex a) w).setSet (setIndex a)
    (((c.writeback (setIndex a) w).sets (setIndex a)).clearValid w) = c1
  have hsets : c1.sets =
      Function.update c.sets (setIndex a) ((s.setWay w .reset).clearValid w) := by
    rw [← hc1]
    simp [setSet, writeback_sets, hset]
  have hline1 : ∀ b, c1.line b = if SameBlock b v then none else c.line b := by
    intro b
    have hsb : SameBlock b v ↔ setIndex b = setIndex a ∧ tagBits b = (s.ways w).tag.setWidth 64 := by
      rw [sameBlock_iff, hvsi, hvtag]
    by_cases hsi : setIndex b = setIndex a
    · rw [line, hsets, hsi, Function.update_self, CacheSet.line_evict hs hlru hvalid, line, hsi,
        hset]
      simp only [hsb, hsi, true_and]
    · rw [if_neg (fun hb => hsi (hsb.mp hb).1), line, line, hsets, Function.update_of_ne hsi]
  have hwf1 : c1.SetsWF := by
    intro sj
    by_cases hj : sj = setIndex a
    · rw [hsets, hj, Function.update_self]
      exact hs.evict w
    · rw [hsets, Function.update_of_ne hj]
      exact h sj
  have hnew1 : c1.line a = none := by
    rw [hline1, hres]
    split <;> rfl
  have hne : ¬ SameBlock v a := by
    intro hva
    rw [← line_congr c hva, hvline] at hres
    cases hres
  obtain ⟨hwf, ⟨e, he, hed⟩, hrest⟩ := install_spec a wr k hwf1 hlru
    (by rw [hsets]; simp [CacheEntry.reset]) hnew1 (d := c.fill a wr k) (by
      rw [← hc1]
      simp [fill, hset, hmiss, hfull, hw, newLine])
  refine ⟨hwf, ⟨e, he, ?_⟩, .inr ⟨v, s.ways w, hne, hvline, ?_, ?_⟩⟩
  · simp [hed, Dirty, hres]
  · intro b hb
    rw [hrest b hb, hline1 b]
  · have hq : (c.fill a wr k).wbQ = (c.writeback (setIndex a) w).wbQ := by
      simp [fill, hset, hmiss, hfull, hw, setSet]
    have := writeback_queues (c := c) (i := setIndex a) (w := w) (v := v)
      (by rw [hset]; exact hvalid) hvsi (by rw [hset, hvtag])
    rw [hset] at this
    exact this.of_wbQ hq

include h in
theorem fill_spec : FillSpec c (c.fill a wr k) a wr := by
  cases hres : c.line a with
  | some e => exact (fill_resident h a wr k (by simp [Resident, hres])).1
  | none =>
    by_cases hfull : (c.sets (setIndex a)).freeWay = NUM_WAYS
    · exact fill_full h a wr k hres hfull
    · have hle : (c.sets (setIndex a)).freeWay ≤ NUM_WAYS := CacheSet.firstWay_le _
      exact fill_free h a wr k hres (by omega)

end Fill

end Cache

end OnnxSim
