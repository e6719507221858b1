import Mathlib.Data.BitVec
import Mathlib.Data.List.Basic
import Mathlib.Tactic
import OnnxSim.Common

/-!
# A cache set of the L2

`CacheEntry` and `CacheSet` of `Cache.h`: sixteen ways, a bit mask of the valid ways and the bits of
a pseudo-LRU tree. The invariant of a set (`CacheSet.WF`) says that the mask agrees with the valid
bits of the ways and that no two valid ways hold one tag; a set is then a partial map from tags to
entries (`CacheSet.line`), and the operations of the bank are described by their effect on that map.
-/

namespace OnnxSim

def NUM_WAYS : Nat := 16

/-- One line: the tag is a 42-bit field, the core a 16-bit one. -/
structure CacheEntry where
  tag : BitVec 42 := 0
  valid : Bool := false
  dirty : Bool := false
  coreId : BitVec 16 := 0xFFFF#16
  deriving Repr, DecidableEq

/-- `CacheEntry::reset`. -/
def CacheEntry.reset : CacheEntry := {}

/-- `CacheEntry::set_core`: the low half of the core id. -/
def CacheEntry.setCore (e : CacheEntry) (c : BitVec 32) : CacheEntry :=
  { e with coreId := c.setWidth 16 }

/-- `CacheEntry::get_core`: the stored half, sign extended. -/
def CacheEntry.getCore (e : CacheEntry) : BitVec 32 := e.coreId.signExtend 32

structure CacheSet where
  ways : Nat → CacheEntry := fun _ => {}
  plru : BitVec 16 := 0
  validMask : BitVec 16 := 0

namespace CacheSet

/-- The lowest way that `p` accepts, `NUM_WAYS` when there is none. The bit loops of the source
visit the bits of `valid_mask` (or of its complement) in this order. -/
def firstWay (p : Nat → Bool) : Nat := ((List.range NUM_WAYS).find? p).getD NUM_WAYS

/-- The first way outside `valid_mask`. -/
def freeWay (s : CacheSet) : Nat := firstWay fun w => !s.validMask.getLsbD w

/-- The first way of `valid_mask` holding `tag`. -/
def findTag (s : CacheSet) (tag : AddrType) : Nat :=
  firstWay fun w => s.validMask.getLsbD w && (s.ways w).tag.setWidth 64 == tag

/-- The descent of `lru_way` through the remaining levels of the tree. -/
def lruWalk (plru : BitVec 16) : Nat → Nat → Nat
  | 0, node => node
  | d + 1, node => lruWalk plru d (if plru.getLsbD node then 2 * node + 2 else 2 * node + 1)

def lruWay (s : CacheSet) : Nat := lruWalk s.plru 4 0 - (NUM_WAYS - 1)

/-- The leftmost leaf `d` levels below `node`. -/
def leftLeaf : Nat → Nat → Nat
  | 0, node => node
  | d + 1, node => leftLeaf d (2 * node + 1)

/-- The descent of `touch` towards the leaf of `way`, writing at each node the side it takes. -/
def touchWalk (way : Nat) : Nat → Nat → BitVec 16 → BitVec 16
  | 0, _, plru => plru
  | d + 1, node, plru =>
    let right := 2 * node + 2
    let goRight := decide (leftLeaf d right - (NUM_WAYS - 1) ≤ way)
    let plru := if goRight then plru ||| (1#16 <<< node) else plru &&& ~~~(1#16 <<< node)
    touchWalk way d (if goRight then right else 2 * node + 1) plru

def touch (s : CacheSet) (way : Nat) : CacheSet := { s with plru := touchWalk way 4 0 s.plru }

def setValid (s : CacheSet) (w : Nat) : CacheSet :=
  { s with validMask := s.validMask ||| (1#16 <<< w) }

def clearValid (s : CacheSet) (w : Nat) : CacheSet :=
  { s with validMask := s.validMask &&& ~~~(1#16 <<< w) }

def setWay (s : CacheSet) (w : Nat) (e : CacheEntry) : CacheSet :=
  { s with ways := Function.update s.ways w e }

/-! ## Searching the ways -/

theorem firstWay_le (p : Nat → Bool) : firstWay p ≤ NUM_WAYS := by
  unfold firstWay
  cases h : (List.range NUM_WAYS).find? p with
  | none => simp
  | some w => simpa using (List.mem_range.mp (List.mem_of_find?_eq_some h)).le

/-- A way found by the search is accepted. -/
theorem firstWay_spec {p : Nat → Bool} (h : firstWay p < NUM_WAYS) : p (firstWay p) = true := by
  unfold firstWay at h ⊢
  cases hf : (List.range NUM_WAYS).find? p with
  | none => rw [hf] at h; simp at h
  | some w => simpa using List.find?_some hf

theorem firstWay_lt_iff {p : Nat → Bool} :
    firstWay p < NUM_WAYS ↔ ∃ w, w < NUM_WAYS ∧ p w = true := by
  constructor
  · intro h
    exact ⟨_, h, firstWay_spec h⟩
  · rintro ⟨w, hw, hp⟩
    unfold firstWay
    cases hf : (List.range NUM_WAYS).find? p with
    | none =>
      have := List.find?_eq_none.mp hf w (List.mem_range.mpr hw)
      exact absurd hp this
    | some v => simpa using List.mem_range.mp (List.mem_of_find?_eq_some hf)

theorem firstWay_congr {p q : Nat → Bool} (h : ∀ w, w < NUM_WAYS → p w = q w) :
    firstWay p = firstWay q := by
  unfold firstWay
  congr 1
  exact List.find?_congr fun w hw => h w (List.mem_range.mp hw)

/-- A search that a single way can answer finds that way. -/
theorem firstWay_eq_of_unique {p : Nat → Bool} {w : Nat} (hw : w < NUM_WAYS) (hp : p w = true)
    (huniq : ∀ v, v < NUM_WAYS → p v = true → v = w) : firstWay p = w :=
  have hlt := firstWay_lt_iff.mpr ⟨w, hw, hp⟩
  huniq _ hlt (firstWay_spec hlt)

/-- The victim is one of the sixteen ways. -/
theorem lruWay_lt (s : CacheSet) : s.lruWay < NUM_WAYS := by
  have step : ∀ (node : Nat), let n := if s.plru.getLsbD node then 2 * node + 2 else 2 * node + 1
      2 * node + 1 ≤ n ∧ n ≤ 2 * node + 2 := by
    intro node
    dsimp only
    split <;> omega
  simp only [lruWay, lruWalk, NUM_WAYS]
  have h1 := step 0
  generalize (if s.plru.getLsbD 0 then 2 * 0 + 2 else 2 * 0 + 1) = n1 at *
  have h2 := step n1
  generalize (if s.plru.getLsbD n1 then 2 * n1 + 2 else 2 * n1 + 1) = n2 at *
  have h3 := step n2
  generalize (if s.plru.getLsbD n2 then 2 * n2 + 2 else 2 * n2 + 1) = n3 at *
  have h4 := step n3
  generalize (if s.plru.getLsbD n3 then 2 * n3 + 2 else 2 * n3 + 1) = n4 at *
  dsimp only at h1 h2 h3 h4
  omega

/-! ## The mask -/

@[simp] theorem touch_ways (s : CacheSet) (w : Nat) : (s.touch w).ways = s.ways := by
  simp only [touch]

@[simp] theorem touch_validMask (s : CacheSet) (w : Nat) :
    (s.touch w).validMask = s.validMask := by
  simp only [touch]

@[simp] theorem setValid_ways (s : CacheSet) (w : Nat) : (s.setValid w).ways = s.ways := rfl

@[simp] theorem clearValid_ways (s : CacheSet) (w : Nat) : (s.clearValid w).ways = s.ways := rfl

@[simp] theorem setWay_validMask (s : CacheSet) (w : Nat) (e : CacheEntry) :
    (s.setWay w e).validMask = s.validMask := rfl

@[simp] theorem setWay_ways (s : CacheSet) (w : Nat) (e : CacheEntry) :
    (s.setWay w e).ways = Function.update s.ways w e := rfl

@[simp] theorem setValid_getLsbD (s : CacheSet) {v w : Nat} (hv : v < NUM_WAYS) :
    (s.setValid w).validMask.getLsbD v = (s.validMask.getLsbD v || decide (v = w)) := by
  unfold NUM_WAYS at hv
  simp only [setValid, BitVec.getLsbD_or, BitVec.getLsbD_shiftLeft, BitVec.getLsbD_one]
  by_cases h : v = w
  · subst h; simp [hv]
  · have : (v < 16 ∧ ¬v < w) → ¬ v - w = 0 := by omega
    by_cases hlt : v < w <;> simp_all

@[simp] theorem clearValid_getLsbD (s : CacheSet) {v w : Nat} (hv : v < NUM_WAYS) :
    (s.clearValid w).validMask.getLsbD v = (s.validMask.getLsbD v && decide (v ≠ w)) := by
  unfold NUM_WAYS at hv
  simp only [clearValid, BitVec.getLsbD_and, BitVec.getLsbD_not, BitVec.getLsbD_shiftLeft,
    BitVec.getLsbD_one]
  by_cases h : v = w
  · subst h; simp [hv]
  · have : (v < 16 ∧ ¬v < w) → ¬ v - w = 0 := by omega
    by_cases hlt : v < w <;> simp_all

/-! ## Well-formed sets -/

/-- The mask agrees with the valid bits, and the valid ways hold distinct tags. -/
structure WF (s : CacheSet) : Prop where
  mask : ∀ w, w < NUM_WAYS → s.validMask.getLsbD w = (s.ways w).valid
  tags : ∀ v w, v < NUM_WAYS → w < NUM_WAYS → (s.ways v).valid = true → (s.ways w).valid = true →
    (s.ways v).tag = (s.ways w).tag → v = w

theorem WF.empty : WF {} := by
  constructor
  · intro w _
    simp
  · intro v w _ _ hv
    simp at hv

theorem WF.touch {s : CacheSet} (h : s.WF) (w : Nat) : (s.touch w).WF :=
  ⟨by simpa using h.mask, by simpa using h.tags⟩

/-- Marking a line dirty keeps the set well formed. -/
theorem WF.setWay_dirty {s : CacheSet} (h : s.WF) {w : Nat} {d : Bool} :
    (s.setWay w { s.ways w with dirty := d }).WF := by
  constructor
  · intro v hv
    by_cases hvw : v = w
    · subst hvw
      simpa using h.mask v hv
    · simpa [hvw] using h.mask v hv
  · intro u v hu hv huv hvv htag
    have key : ∀ x, ((s.setWay w { s.ways w with dirty := d }).ways x).valid = (s.ways x).valid ∧
        ((s.setWay w { s.ways w with dirty := d }).ways x).tag = (s.ways x).tag := by
      intro x
      by_cases hx : x = w
      · subst hx; simp
      · simp [hx]
    rw [(key u).1] at huv
    rw [(key v).1] at hvv
    rw [(key u).2, (key v).2] at htag
    exact h.tags u v hu hv huv hvv htag

/-- The map a set stands for: the entry of the valid way that holds the tag. -/
def line (s : CacheSet) (tag : AddrType) : Option CacheEntry :=
  if s.findTag tag < NUM_WAYS then some (s.ways (s.findTag tag)) else none

theorem findTag_spec {s : CacheSet} (h : s.WF) {tag : AddrType} (hlt : s.findTag tag < NUM_WAYS) :
    (s.ways (s.findTag tag)).valid = true ∧
      (s.ways (s.findTag tag)).tag.setWidth 64 = tag := by
  have hp := firstWay_spec hlt
  simp only [Bool.and_eq_true, beq_iff_eq] at hp
  exact ⟨(h.mask _ hlt) ▸ hp.1, hp.2⟩

/-- Widening a tag field loses nothing. -/
theorem setWidth_tag_inj {x y : BitVec 42} (h : x.setWidth 64 = y.setWidth 64) : x = y := by
  have := congrArg BitVec.toNat h
  simp only [BitVec.toNat_setWidth] at this
  apply BitVec.eq_of_toNat_eq
  have hx := x.isLt
  have hy := y.isLt
  omega

/-- A valid way holding the tag is the way `find_tag` returns. -/
theorem findTag_eq {s : CacheSet} (h : s.WF) {tag : AddrType} {w : Nat} (hw : w < NUM_WAYS)
    (hv : (s.ways w).valid = true) (ht : (s.ways w).tag.setWidth 64 = tag) :
    s.findTag tag = w := by
  apply firstWay_eq_of_unique hw
  · simp [h.mask w hw, hv, ht]
  · intro v hvw hp
    simp only [Bool.and_eq_true, beq_iff_eq, h.mask v hvw] at hp
    apply h.tags v w hvw hw hp.1 hv
    exact setWidth_tag_inj (hp.2.trans ht.symm)

theorem findTag_congr {s t : CacheSet} (hm : s.validMask = t.validMask)
    (hw : ∀ w, (s.ways w).tag = (t.ways w).tag) (tag : AddrType) :
    s.findTag tag = t.findTag tag := by
  apply firstWay_congr
  intro w _
  simp [hm, hw w]

end CacheSet

end OnnxSim
