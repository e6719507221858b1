import Mathlib.Algebra.BigOperators.Group.Finset.Basic
import Mathlib.Algebra.Ring.Nat
import OnnxSim.Lib.Machine
import OnnxSim.Sram

/-!
# The books of a scratchpad

A scratchpad keeps three books: the entries of each buffer, the size of each buffer in chunks, and the
bytes it has asked for. They are written by different statements of `Sram.cc`. In every run of calls
that violate no assertion they agree (`Sram.Run.books`): the size of a buffer is the sum of the sizes
of its entries and fits its capacity, an entry is valid exactly when it waits for nothing, and the
bytes are those of the prefetches that allocated something.
-/

namespace OnnxSim

namespace Sram

/-! ## Calls -/

/-- An empty scratchpad. The constructors differ in the capacity only; the one for the L2 leaves
`_accum` as it happens to be. -/
def empty (size dataWidth : Nat) (accum : Bool) : Sram where
  size := size
  dataWidth := dataWidth
  accum := accum

theorem create_eq_empty (config : SimulationConfig) (accum : Bool) (coreId : Nat) :
    create config accum coreId =
      empty (create config accum coreId).size config.dramReqSize accum := rfl

/-- `Sram::prefetch` with the number it returns. An address of the accumulator that is allocated
already is left alone, and 0 is returned. -/
def prefetchReturn (s : Sram) (address : AddrType) (bufferId allocatedSize count : Nat) :
    Option (Nat × Sram) :=
  match s.cacheTable bufferId address with
  | none =>
    if s.checkRemain allocatedSize bufferId then
      some (1, { s with
        currentSize := Function.update s.currentSize bufferId (s.currentSize bufferId + allocatedSize)
        bytesRequested := s.bytesRequested + allocatedSize * s.dataWidth }.setEntry bufferId address
          { valid := false, size := allocatedSize, remainReqCount := count })
    else none
  | some e => if s.accum ∧ e.size = allocatedSize then some (0, s) else none

/-- The callers of `prefetch` exit when it returns 0. -/
theorem prefetch_eq_bind (s : Sram) (address : AddrType) (bufferId allocatedSize count : Nat) :
    s.prefetch address bufferId allocatedSize count =
      (s.prefetchReturn address bufferId allocatedSize count).bind fun r =>
        if r.1 = 0 then none else some r.2 := by
  unfold prefetch prefetchReturn checkAllocated
  cases s.cacheTable bufferId address with
  | none =>
    simp only [Option.isSome_none, Bool.false_eq_true, if_false]
    split <;> rfl
  | some e =>
    simp only [Option.isSome_some, if_true]
    split <;> rfl

inductive Call
  | prefetch (address : AddrType) (bufferId allocatedSize count : Nat)
  | fill (address : AddrType) (bufferId : Nat)
  | countUp (address : AddrType) (bufferId : Nat)
  | flush (bufferId : Nat)

def Call.bufferId : Call → Nat
  | .prefetch _ b _ _ | .fill _ b | .countUp _ b | .flush b => b

/-- A prefetch waits for at least one answer. -/
def Call.Positive : Call → Prop
  | .prefetch _ _ _ count => 1 ≤ count
  | _ => True

def call (s : Sram) : Call → Option Sram
  | .prefetch address b size count => (s.prefetchReturn address b size count).map Prod.snd
  | .fill address b => s.fill address b
  | .countUp address b => s.countUp address b
  | .flush b => some (s.flush b)

/-- The chunks that the call allocates: those of a prefetch that returns 1. -/
def granted (s : Sram) : Call → Nat
  | .prefetch address b size count =>
    match s.prefetchReturn address b size count with
    | some (1, _) => size
    | _ => 0
  | _ => 0

/-- The runs of an empty scratchpad of any capacity. -/
def Run (size dataWidth : Nat) (accum : Bool) (h : List (Sram × Call)) (s : Sram) : Prop :=
  Machine.Run (Machine.partialDet call) (empty size dataWidth accum) h s

/-- The chunks that the calls of a run have allocated. -/
def grantedIn (h : List (Sram × Call)) : Nat := (h.map fun p => p.1.granted p.2).sum

/-! ## The books -/

/-- The chunks of the entry at `address`. -/
def entrySize (s : Sram) (b : Nat) (address : AddrType) : Nat :=
  ((s.cacheTable b address).map SramEntry.size).getD 0

/-- The books of buffer `b` agree. -/
structure Books (s : Sram) (b : Nat) : Prop where
  total : ∃ keys : Finset AddrType, (∀ a, a ∈ keys ↔ s.checkAllocated a b) ∧
    s.currentSize b = ∑ a ∈ keys, s.entrySize b a
  fits : s.currentSize b * s.dataWidth ≤ s.size
  valid_iff : ∀ a e, s.cacheTable b a = some e → (e.valid ↔ e.remainReqCount = 0)

variable {s s' : Sram} {b : Nat} {address : AddrType}

theorem Books.congr (h : s.Books b) (htable : s'.cacheTable b = s.cacheTable b)
    (hcurrent : s'.currentSize b = s.currentSize b) (hwidth : s'.dataWidth = s.dataWidth)
    (hsize : s'.size = s.size) : s'.Books b := by
  obtain ⟨keys, hkeys, hsum⟩ := h.total
  refine ⟨⟨keys, ?_, ?_⟩, ?_, ?_⟩
  · unfold checkAllocated
    rw [htable]
    exact hkeys
  · unfold entrySize
    rw [hcurrent, htable]
    exact hsum
  · rw [hcurrent, hwidth, hsize]
    exact h.fits
  · rw [htable]
    exact h.valid_iff

theorem Books.of_empty (hcurrent : s.currentSize b = 0) (htable : ∀ a, s.cacheTable b a = none) :
    s.Books b where
  total := by
    refine ⟨∅, fun a => ?_, by rw [hcurrent, Finset.sum_empty]⟩
    unfold checkAllocated
    rw [htable]
    simp
  fits := by
    rw [hcurrent, Nat.zero_mul]
    exact Nat.zero_le _
  valid_iff := by
    intro a e he
    rw [htable] at he
    cases he

/-! ## One entry -/

section SetEntry

variable {e : SramEntry}

@[simp] theorem setEntry_self (s : Sram) (b : Nat) (address : AddrType) (e : SramEntry) :
    (s.setEntry b address e).cacheTable b address = some e := by
  simp [setEntry]

theorem setEntry_of_ne {a : AddrType} (h : a ≠ address) :
    (s.setEntry b address e).cacheTable b a = s.cacheTable b a := by
  simp [setEntry, h]

theorem setEntry_other {b' : Nat} (h : b' ≠ b) :
    (s.setEntry b address e).cacheTable b' = s.cacheTable b' := by
  simp [setEntry, h]

theorem valid_iff_setEntry (h : ∀ a e, s.cacheTable b a = some e → (e.valid ↔ e.remainReqCount = 0))
    (he : e.valid ↔ e.remainReqCount = 0) :
    ∀ a e', (s.setEntry b address e).cacheTable b a = some e' →
      (e'.valid ↔ e'.remainReqCount = 0) := by
  intro a e' he'
  by_cases ha : a = address
  · subst ha
    rw [setEntry_self] at he'
    obtain rfl := Option.some.inj he'
    exact he
  · rw [setEntry_of_ne ha] at he'
    exact h a e' he'

/-- An entry that keeps its size keeps the total. -/
theorem Books.update {e₀ : SramEntry} (h : s.Books b) (h₀ : s.cacheTable b address = some e₀)
    (hsize : e.size = e₀.size) (he : e.valid ↔ e.remainReqCount = 0) :
    (s.setEntry b address e).Books b := by
  have hother : ∀ a, ((s.setEntry b address e).cacheTable b a).map SramEntry.size =
      (s.cacheTable b a).map SramEntry.size := by
    intro a
    by_cases ha : a = address
    · subst ha
      rw [setEntry_self, h₀, Option.map_some, Option.map_some, hsize]
    · rw [setEntry_of_ne ha]
  obtain ⟨keys, hkeys, hsum⟩ := h.total
  refine ⟨⟨keys, fun a => ?_, ?_⟩, h.fits, valid_iff_setEntry h.valid_iff he⟩
  · have hsome := congrArg Option.isSome (hother a)
    rw [Option.isSome_map, Option.isSome_map] at hsome
    unfold checkAllocated
    rw [hsome]
    exact hkeys a
  · unfold entrySize
    simp only [hother]
    exact hsum

/-- A new entry adds its size. -/
theorem Books.allocate (h : s.Books b) (hnone : s.cacheTable b address = none)
    (htable : s'.cacheTable b = (s.setEntry b address e).cacheTable b)
    (hcurrent : s'.currentSize b = s.currentSize b + e.size)
    (hfits : s'.currentSize b * s'.dataWidth ≤ s'.size) (he : e.valid ↔ e.remainReqCount = 0) :
    s'.Books b := by
  obtain ⟨keys, hkeys, hsum⟩ := h.total
  have hnew : address ∉ keys := by
    rw [hkeys, checkAllocated, hnone]
    exact Bool.false_ne_true
  refine ⟨⟨insert address keys, fun a => ?_, ?_⟩, hfits, ?_⟩
  · unfold checkAllocated
    rw [htable, Finset.mem_insert, hkeys]
    by_cases ha : a = address
    · subst ha
      simp
    · simp [ha, setEntry_of_ne ha, checkAllocated]
  · have hold : ∑ a ∈ keys, s'.entrySize b a = ∑ a ∈ keys, s.entrySize b a := by
      refine Finset.sum_congr rfl fun a ha => ?_
      have hne : a ≠ address := by
        rintro rfl
        exact hnew ha
      unfold entrySize
      rw [htable, setEntry_of_ne hne]
    have hsize : s'.entrySize b address = e.size := by
      unfold entrySize
      rw [htable, setEntry_self]
      rfl
    rw [Finset.sum_insert hnew, hold, hsize, hcurrent, hsum, Nat.add_comm]
  · rw [htable]
    exact valid_iff_setEntry h.valid_iff he

end SetEntry

/-! ## One call -/

/-- A prefetch allocates, or finds the address allocated and does nothing. -/
theorem prefetchReturn_cases {size count ret : Nat}
    (h : s.prefetchReturn address b size count = some (ret, s')) :
    (ret = 1 ∧ s.cacheTable b address = none ∧ (s.currentSize b + size) * s.dataWidth ≤ s.size ∧
      s' = { s with
        currentSize := Function.update s.currentSize b (s.currentSize b + size)
        bytesRequested := s.bytesRequested + size * s.dataWidth }.setEntry b address
          { valid := false, size := size, remainReqCount := count }) ∨
    ret = 0 ∧ s' = s := by
  unfold prefetchReturn at h
  split at h
  · rename_i hnone
    split at h
    · rename_i hremain
      obtain ⟨rfl, rfl⟩ := Prod.mk.inj (Option.some.inj h)
      exact .inl ⟨rfl, hnone, by simpa [checkRemain] using hremain, rfl⟩
    · cases h
  · split at h
    · obtain ⟨rfl, rfl⟩ := Prod.mk.inj (Option.some.inj h)
      exact .inr ⟨rfl, rfl⟩
    · cases h

theorem granted_of_return {size count ret : Nat}
    (h : s.prefetchReturn address b size count = some (ret, s')) :
    s.granted (.prefetch address b size count) = if ret = 1 then size else 0 := by
  simp only [granted, h]
  rcases prefetchReturn_cases h with ⟨rfl, -⟩ | ⟨rfl, -⟩ <;> rfl

/-- What every call keeps, and what it adds to the bytes. -/
structure Posted (s : Sram) (c : Call) (s' : Sram) : Prop where
  size : s'.size = s.size
  dataWidth : s'.dataWidth = s.dataWidth
  bytesRequested : s'.bytesRequested = s.bytesRequested + s.dataWidth * s.granted c
  otherSize : ∀ b, b ≠ c.bufferId → s'.currentSize b = s.currentSize b
  otherTable : ∀ b, b ≠ c.bufferId → s'.cacheTable b = s.cacheTable b

theorem call_posted {c : Call} (h : s.call c = some s') : Posted s c s' := by
  cases c with
  | prefetch address b size count =>
    obtain ⟨⟨ret, s''⟩, hret, rfl⟩ := Option.map_eq_some_iff.mp h
    have hgranted := granted_of_return hret
    rcases prefetchReturn_cases hret with ⟨rfl, -, -, rfl⟩ | ⟨rfl, rfl⟩
    · refine ⟨rfl, rfl, ?_, fun b' hb => ?_, fun b' hb => setEntry_other hb⟩
      · rw [hgranted, if_pos rfl, Nat.mul_comm]
        rfl
      · exact Function.update_of_ne hb _ _
    · refine ⟨rfl, rfl, ?_, fun _ _ => rfl, fun _ _ => rfl⟩
      rw [hgranted, if_neg (by decide), Nat.mul_zero, Nat.add_zero]
  | fill address b =>
    obtain ⟨e, -, h⟩ := Option.bind_eq_some_iff.mp h
    split at h
    · obtain rfl := Option.some.inj h
      exact ⟨rfl, rfl, rfl, fun _ _ => rfl, fun b' hb => setEntry_other hb⟩
    · cases h
  | countUp address b =>
    obtain ⟨e, -, h⟩ := Option.bind_eq_some_iff.mp h
    obtain rfl := Option.some.inj h
    exact ⟨rfl, rfl, rfl, fun _ _ => rfl, fun b' hb => setEntry_other hb⟩
  | flush b =>
    obtain rfl := Option.some.inj h
    exact ⟨rfl, rfl, rfl, fun b' hb => Function.update_of_ne hb _ _,
      fun b' hb => Function.update_of_ne hb _ _⟩

/-- The books of the buffer that is called. -/
theorem Books.call {c : Call} (hc : c.Positive) (h : s.Books c.bufferId) (hs : s.call c = some s') :
    s'.Books c.bufferId := by
  cases c with
  | prefetch address b size count =>
    obtain ⟨⟨ret, s''⟩, hret, rfl⟩ := Option.map_eq_some_iff.mp hs
    rcases prefetchReturn_cases hret with ⟨-, hnone, hfits, rfl⟩ | ⟨-, rfl⟩
    · have hcurrent : Function.update s.currentSize b (s.currentSize b + size) b =
          s.currentSize b + size := Function.update_self ..
      refine h.allocate hnone rfl hcurrent ?_ ?_
      · change Function.update s.currentSize b (s.currentSize b + size) b * s.dataWidth ≤ s.size
        rwa [hcurrent]
      · have hpos : 1 ≤ count := hc
        simp only [Bool.false_eq_true, false_iff]
        omega
    · exact h
  | fill address b =>
    obtain ⟨e, he, hs⟩ := Option.bind_eq_some_iff.mp hs
    split at hs
    · obtain rfl := Option.some.inj hs
      exact h.update he rfl beq_iff_eq
    · cases hs
  | countUp address b =>
    obtain ⟨e, he, hs⟩ := Option.bind_eq_some_iff.mp hs
    obtain rfl := Option.some.inj hs
    exact h.update he rfl (by simp)
  | flush b =>
    obtain rfl := Option.some.inj hs
    exact Books.of_empty (Function.update_self ..) fun a => by simp [flush, Call.bufferId]

/-! ## Runs -/

/-- In every run the books agree, a call leaves the other buffer alone, and the bytes requested are
those of the prefetches that allocated. -/
theorem Run.books {size dataWidth : Nat} {accum : Bool} {h : List (Sram × Call)}
    (run : Run size dataWidth accum h s) (hcount : Machine.EachStep (fun _ c => c.Positive) h) :
    (∀ b, s.Books b) ∧
    (∀ c s', s.call c = some s' → ∀ b, b ≠ c.bufferId →
      s'.currentSize b = s.currentSize b ∧ s'.cacheTable b = s.cacheTable b) ∧
    s.bytesRequested = s.dataWidth * grantedIn h := by
  refine ⟨?_, fun c s' hs b hb => ⟨(call_posted hs).otherSize b hb, (call_posted hs).otherTable b hb⟩,
    ?_⟩
  · refine Machine.Run.invariant_of (P := fun s => ∀ b, s.Books b) run
      (fun b => Books.of_empty rfl fun _ => rfl) ?_ hcount
    intro s c s' hbooks hc hs b
    have hposted := call_posted hs
    by_cases hb : b = c.bufferId
    · subst hb
      exact (hbooks c.bufferId).call hc hs
    · exact (hbooks b).congr (hposted.otherTable b hb) (hposted.otherSize b hb) hposted.dataWidth
        hposted.size
  · clear hcount
    induction run with
    | nil => rfl
    | snoc _ step ih =>
      have hposted := call_posted step
      rw [hposted.bytesRequested, hposted.dataWidth, ih, grantedIn, grantedIn, List.map_append,
        List.sum_append, List.map_singleton, List.sum_singleton, Nat.mul_add]

/-- Two accumulations into one address of the accumulator, of which the first is complete before the
second is added, then a flush. -/
def accumulations : List Call :=
  [.prefetch ACCUM_SPAD_BASE 1 2 1, .fill ACCUM_SPAD_BASE 1, .countUp ACCUM_SPAD_BASE 1,
    .prefetch ACCUM_SPAD_BASE 1 2 1, .fill ACCUM_SPAD_BASE 1, .flush 1]

theorem Run.books_accumulations : ∃ (h : List (Sram × Call)) (s : Sram),
    h.map Prod.snd = accumulations ∧ Run 128 32 true h s ∧
    (∀ b, s.Books b) ∧
    (∀ c s', s.call c = some s' → ∀ b, b ≠ c.bufferId →
      s'.currentSize b = s.currentSize b ∧ s'.cacheTable b = s.cacheTable b) ∧
    s.bytesRequested = s.dataWidth * grantedIn h := by
  have hsome : (accumulations.foldlM call (empty 128 32 true)).isSome := by decide +kernel
  obtain ⟨s, hs⟩ := Option.isSome_iff_exists.mp hsome
  obtain ⟨h, hcalls, run⟩ := Machine.Run.of_foldlM hs
  have hcount : Machine.EachStep (fun _ c => c.Positive) h := by
    intro p hp
    have hmem : p.2 ∈ accumulations := hcalls ▸ List.mem_map_of_mem hp
    simp only [accumulations, List.mem_cons, List.not_mem_nil, or_false] at hmem
    rcases hmem with hc | hc | hc | hc | hc | hc <;> rw [hc] <;> simp [Call.Positive]
  exact ⟨h, s, hcalls, run, Run.books run hcount⟩

/-! ## The arithmetic of the source -/

/-- `Sram::check_remain` with the arithmetic of `size_t`. -/
def machineRemain (s : Sram) (n b : Nat) : Bool :=
  (s.currentSize b + n) % 2 ^ 64 * s.dataWidth % 2 ^ 64 ≤ s.size

/-- Where the books agree, a request of a 32-bit size, which is what an instruction has, wraps
nowhere, and the size of the buffer stays an `int`. -/
theorem Books.machineRemain_eq {n : Nat} (h : s.Books b) (hsize : s.size < 2 ^ 31)
    (hpos : 0 < s.dataWidth) (hwidth : s.dataWidth < 2 ^ 31) (hn : n < 2 ^ 32) :
    s.machineRemain n b = s.checkRemain n b ∧
      (s.checkRemain n b → s.currentSize b + n < 2 ^ 31) := by
  have hcurrent : s.currentSize b < 2 ^ 31 :=
    calc s.currentSize b ≤ s.currentSize b * s.dataWidth := Nat.le_mul_of_pos_right _ hpos
      _ ≤ s.size := h.fits
      _ < 2 ^ 31 := hsize
  have hsum : s.currentSize b + n < 2 ^ 33 := by omega
  have hprod : (s.currentSize b + n) * s.dataWidth < 2 ^ 64 :=
    calc (s.currentSize b + n) * s.dataWidth < 2 ^ 33 * 2 ^ 31 := Nat.mul_lt_mul'' hsum hwidth
      _ = 2 ^ 64 := by decide
  refine ⟨?_, fun hremain => ?_⟩
  · unfold machineRemain checkRemain
    rw [Nat.mod_eq_of_lt (show s.currentSize b + n < 2 ^ 64 by omega), Nat.mod_eq_of_lt hprod]
  · calc s.currentSize b + n ≤ (s.currentSize b + n) * s.dataWidth :=
        Nat.le_mul_of_pos_right _ hpos
      _ ≤ s.size := by simpa [checkRemain] using hremain
      _ < 2 ^ 31 := hsize

end Sram

end OnnxSim
