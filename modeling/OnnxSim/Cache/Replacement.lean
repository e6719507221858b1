import OnnxSim.Cache.Lines
import OnnxSim.Lib.Machine

/-!
# Which way a full set gives up

`CacheSet::touch` writes at each node of its tree the side on which the touched way lies, and
`CacheSet::lru_way` follows the bits to that side. So the victim of a fill into a full set is the way
that was touched last (`CacheSet.lruWay_touch`), not one that was touched long ago.
-/

namespace OnnxSim

namespace CacheSet

/-! ## The tree -/

theorem leftLeaf_eq (d node : Nat) : leftLeaf d node + 1 = (node + 1) * 2 ^ d := by
  induction d generalizing node with
  | zero => simp [leftLeaf]
  | succ d ih =>
    rw [leftLeaf, ih, Nat.pow_succ]
    ring

/-- The descent from a node writes the bits of that node and of the nodes below it. -/
theorem touchWalk_getLsbD (way d : Nat) {k node : Nat} (h : k < node) (plru : BitVec 16) :
    (touchWalk way d node plru).getLsbD k = plru.getLsbD k := by
  induction d generalizing node plru with
  | zero => rfl
  | succ d ih =>
    unfold touchWalk
    have hbit : ∀ (b : Bool), (if b then plru ||| (1#16 <<< node) else
        plru &&& ~~~(1#16 <<< node)).getLsbD k = plru.getLsbD k := by
      intro b
      cases b with
      | true => simp [h]
      | false =>
        have hlt : plru.getLsbD k = true → k < 16 := fun hset => BitVec.lt_of_getLsbD hset
        simpa [h, Nat.sub_eq_zero_of_le (Nat.le_of_lt h)] using hlt
    dsimp only
    rw [ih (by split <;> omega), hbit]

/-- After the descent to a way's leaf, the bits lead there from every node above it. -/
theorem lruWalk_touchWalk (way d node : Nat) (hlow : (node + 1) * 2 ^ d ≤ way + NUM_WAYS)
    (hhigh : way + NUM_WAYS < (node + 2) * 2 ^ d) (hway : way < NUM_WAYS) (plru : BitVec 16) :
    lruWalk (touchWalk way d node plru) d node + 1 = way + NUM_WAYS := by
  induction d generalizing node plru with
  | zero =>
    simp only [lruWalk, Nat.pow_zero, Nat.mul_one] at hlow hhigh ⊢
    omega
  | succ d ih =>
    have hnode : node < 16 := by
      have hpow := Nat.one_le_two_pow (n := d)
      rw [Nat.pow_succ] at hlow
      unfold NUM_WAYS at hlow hway
      nlinarith
    have hleaf := leftLeaf_eq d (2 * node + 2)
    unfold touchWalk lruWalk
    dsimp only
    have hbit : ∀ (goRight : Bool), (touchWalk way d (if goRight then 2 * node + 2 else 2 * node + 1)
        (if goRight then plru ||| (1#16 <<< node) else
          plru &&& ~~~(1#16 <<< node))).getLsbD node = goRight := by
      intro goRight
      rw [touchWalk_getLsbD _ _ (by split <;> omega)]
      cases goRight <;> simp [hnode]
    by_cases hright : leftLeaf d (2 * node + 2) - (NUM_WAYS - 1) ≤ way
    · have hset := hbit true
      simp only [hright, decide_true, if_true] at hset ⊢
      rw [hset]
      refine ih _ ?_ ?_ _
      · unfold NUM_WAYS at hright ⊢
        omega
      · calc way + NUM_WAYS < (node + 2) * 2 ^ (d + 1) := hhigh
          _ = (2 * node + 2 + 2) * 2 ^ d := by ring
    · have hclear := hbit false
      simp only [hright, decide_false, Bool.false_eq_true, if_false] at hclear ⊢
      rw [hclear]
      refine ih _ ?_ ?_ _
      · calc (2 * node + 1 + 1) * 2 ^ d = (node + 1) * 2 ^ (d + 1) := by ring
          _ ≤ way + NUM_WAYS := hlow
      · have hsame : (2 * node + 1 + 2) * 2 ^ d = (2 * node + 2 + 1) * 2 ^ d := rfl
        unfold NUM_WAYS at hright ⊢
        omega

/-- The way that was just touched is the one that `lru_way` names. -/
theorem lruWay_touch (s : CacheSet) {way : Nat} (h : way < NUM_WAYS) : (s.touch way).lruWay = way := by
  have hwalk := lruWalk_touchWalk way 4 0 (by unfold NUM_WAYS; omega)
    (by unfold NUM_WAYS at h ⊢; omega) h s.plru
  unfold lruWay touch
  dsimp only
  unfold NUM_WAYS at hwalk ⊢
  omega

/-! ## Hits and fills -/

/-- The hit path of `process_one_request` on the set of the block. -/
def hit (s : CacheSet) (tag : AddrType) (write : Bool) : CacheSet :=
  let w := s.findTag tag
  (if write then s.setWay w { s.ways w with dirty := true } else s).touch w

/-- The way that a fill uses: that of the block, a free one, or the victim. -/
def fillWay (s : CacheSet) (tag : AddrType) : Nat :=
  if s.findTag tag < NUM_WAYS then s.findTag tag
  else if s.freeWay = NUM_WAYS then s.lruWay else s.freeWay

/-- A fill evicts the way that `lru_way` names when the block is absent and no way is free. -/
def Evicts (s : CacheSet) (tag : AddrType) : Prop :=
  ¬ s.findTag tag < NUM_WAYS ∧ s.freeWay = NUM_WAYS

instance (s : CacheSet) (tag : AddrType) : Decidable (s.Evicts tag) :=
  inferInstanceAs (Decidable (_ ∧ _))

/-- `Cache::fill` on the set of the block. -/
def fill (s : CacheSet) (tag : AddrType) (isWrite : Bool) (coreId : BitVec 32) : CacheSet :=
  let w := s.fillWay tag
  if s.findTag tag < NUM_WAYS then
    (if isWrite then s.setWay w { s.ways w with dirty := true } else s).touch w
  else
    let s := if s.freeWay = NUM_WAYS then (s.setWay w .reset).clearValid w else s
    let e : CacheEntry := { s.ways w with tag := tag.setWidth 42, valid := true, dirty := isWrite }
    ((s.setWay w (e.setCore coreId)).setValid w).touch w

/-- A full set without the block gives up the way that `lru_way` names. -/
theorem Evicts.fillWay {s : CacheSet} {tag : AddrType} (h : s.Evicts tag) :
    s.fillWay tag = s.lruWay := by
  unfold CacheSet.fillWay
  rw [if_neg h.1, if_pos h.2]

theorem fillWay_lt (s : CacheSet) (tag : AddrType) : s.fillWay tag < NUM_WAYS := by
  unfold fillWay
  split
  · assumption
  · split
    · exact s.lruWay_lt
    · rename_i hfree
      exact lt_of_le_of_ne (firstWay_le _) hfree

/-- After a hit, `lru_way` names the way that was hit. -/
theorem lruWay_hit {s : CacheSet} {tag : AddrType} (h : s.findTag tag < NUM_WAYS) (write : Bool) :
    (s.hit tag write).lruWay = s.findTag tag := lruWay_touch _ h

/-- After a fill, `lru_way` names the way that was filled. -/
theorem lruWay_fill (s : CacheSet) (tag : AddrType) (isWrite : Bool) (coreId : BitVec 32) :
    (s.fill tag isWrite coreId).lruWay = s.fillWay tag := by
  unfold fill
  dsimp only
  split
  · exact lruWay_touch _ (s.fillWay_lt tag)
  · exact lruWay_touch _ (s.fillWay_lt tag)

end CacheSet

/-! ## Histories of a set -/

/-- A set and the way most recently passed to `touch`. -/
structure TouchedSet where
  set : CacheSet := {}
  last : Option Nat := none

namespace TouchedSet

inductive Act
  | hit (tag : AddrType) (write : Bool)
  | fill (tag : AddrType) (isWrite : Bool) (coreId : BitVec 32)

def step (t : TouchedSet) : Act → Option TouchedSet
  | .hit tag write =>
    if t.set.findTag tag < NUM_WAYS then
      some { set := t.set.hit tag write, last := some (t.set.findTag tag) }
    else none
  | .fill tag isWrite coreId =>
    some { set := t.set.fill tag isWrite coreId, last := some (t.set.fillWay tag) }

abbrev Run (h : List (TouchedSet × Act)) (t : TouchedSet) : Prop :=
  Machine.Run (Machine.partialDet step) {} h t

/-- The act is a fill that evicts. -/
def Evicting (t : TouchedSet) : Act → Prop
  | .hit .. => False
  | .fill tag .. => t.set.Evicts tag

/-- A fill that evicts does not choose the way touched last. -/
def Protects (t : TouchedSet) (a : Act) : Prop := t.Evicting a → t.last ≠ some t.set.lruWay

/-- `lru_way` names the way touched last; a set never touched is empty. -/
def Named (t : TouchedSet) : Prop :=
  (t.last = none → t.set.validMask = 0) ∧ ∀ w, t.last = some w → t.set.lruWay = w

theorem Named.step {t t' : TouchedSet} {a : Act} (hs : t.step a = some t') : t'.Named := by
  cases a with
  | hit tag write =>
    rw [TouchedSet.step] at hs
    split at hs
    · rename_i hres
      obtain rfl := Option.some.inj hs
      refine ⟨by simp, fun w hw => ?_⟩
      obtain rfl := Option.some.inj hw
      exact CacheSet.lruWay_hit hres write
    · cases hs
  | fill tag isWrite coreId =>
    obtain rfl := Option.some.inj hs
    refine ⟨by simp, fun w hw => ?_⟩
    obtain rfl := Option.some.inj hw
    exact t.set.lruWay_fill tag isWrite coreId

theorem Run.named {h : List (TouchedSet × Act)} {t : TouchedSet} (run : Run h t) : t.Named :=
  Machine.Run.invariant run ⟨fun _ => rfl, by simp⟩ fun _ _ _ _ hs => Named.step hs

/-- The victim of an evicting fill is the way touched last. -/
theorem Named.victim {t : TouchedSet} (h : t.Named) {a : Act} (he : t.Evicting a) :
    t.last = some t.set.lruWay := by
  cases a with
  | hit => exact he.elim
  | fill tag isWrite coreId =>
    cases hlast : t.last with
    | some w => rw [h.2 w hlast]
    | none =>
      -- a set without valid ways has a free one
      have hfree : t.set.freeWay < NUM_WAYS :=
        CacheSet.firstWay_lt_iff.mpr ⟨0, by decide, by simp [h.1 hlast]⟩
      exact absurd he.2 (Nat.ne_of_lt hfree)

/-- The evictions of a history spare the way touched last exactly when there are none. -/
theorem protects_iff {h : List (TouchedSet × Act)} {t : TouchedSet} (run : Run h t) :
    Machine.EachStep Protects h ↔ Machine.EachStep (fun t a => ¬ t.Evicting a) h := by
  constructor
  · intro hall p hp he
    obtain ⟨_, _, before, -⟩ := run.of_mem hp
    exact hall p hp he (Run.named before |>.victim he)
  · intro hnone p hp he
    exact absurd he (hnone p hp)

/-- Sixteen blocks are filled into an empty set. -/
def fillRun : List Act := (List.range 16).map fun k => .fill (BitVec.ofNat 64 k) false 0

theorem fillRun_full : (fillRun.foldlM step {}).map (fun t =>
    (t.set.freeWay, t.set.findTag 16, t.set.lruWay, t.last)) = some (16, 16, 15, some 15) := by
  decide +kernel

/-- The seventeenth fill then evicts the block of the sixteenth. -/
theorem fillRun_evicts_last : ¬ ∀ h t, Run h t → Machine.EachStep Protects h := by
  intro hall
  obtain ⟨t, ht, hstate⟩ := Option.map_eq_some_iff.mp fillRun_full
  simp only [Prod.mk.injEq] at hstate
  obtain ⟨hfree, hfind, hlru, hlast⟩ := hstate
  obtain ⟨h, -, run⟩ := Machine.Run.of_foldlM ht
  have hstep : t.step (.fill 16 false 0) =
      some { set := t.set.fill 16 false 0, last := some (t.set.fillWay 16) } := rfl
  have hprotects := (Machine.EachStep.snoc_iff.mp (hall _ _ (run.snoc hstep))).2
  exact hprotects ⟨Nat.not_lt.mpr hfind.ge, hfree⟩ (by rw [hlast, hlru])

/-- The history of the sixteen fills has no eviction. -/
theorem protects_iff_fillRun : ∃ h t, Run h t ∧ (Machine.EachStep Protects h ↔
    Machine.EachStep (fun t a => ¬ t.Evicting a) h) := by
  obtain ⟨t, ht, -⟩ := Option.map_eq_some_iff.mp fillRun_full
  obtain ⟨h, -, run⟩ := Machine.Run.of_foldlM ht
  exact ⟨h, t, run, protects_iff run⟩

end TouchedSet

namespace Cache

/-- `fill` changes the set of the block and no other. -/
theorem fill_sets (c : Cache) (a : AddrType) (isWrite : Bool) (coreId : BitVec 32) :
    (c.fill a isWrite coreId).sets = Function.update c.sets (setIndex a)
      ((c.sets (setIndex a)).fill (tagBits a) isWrite coreId) := by
  unfold fill CacheSet.fill CacheSet.fillWay
  by_cases hres : (c.sets (setIndex a)).findTag (tagBits a) < NUM_WAYS
  · simp [hres, setSet]
  · by_cases hfull : (c.sets (setIndex a)).freeWay = NUM_WAYS
    · simp [hres, hfull, setSet, writeback_sets]
    · simp [hres, hfull, setSet]

/-- So does the hit path. -/
theorem answerHit_sets (c : Cache) (req : MemoryAccess) :
    (c.answerHit req).sets = Function.update c.sets (setIndex req.dramAddress)
      ((c.sets (setIndex req.dramAddress)).hit (tagBits req.dramAddress) req.write) := rfl

end Cache

end OnnxSim
