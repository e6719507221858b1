import OnnxSim.Common

/-!
# The scratchpads of a core

`Sram` of `Sram.h` and `Sram.cc`: two buffers of allocated destinations. The counters of hits and
misses and the time stamps are left out: nothing reads them. A failed assertion is `none`.
-/

namespace OnnxSim

structure SramEntry where
  valid : Bool
  size : Nat
  remainReqCount : Nat
  deriving Repr, DecidableEq

structure Sram where
  /-- Bytes of one buffer. -/
  size : Nat
  dataWidth : Nat
  accum : Bool
  currentSize : Nat → Nat := fun _ => 0
  cacheTable : Nat → AddrType → Option SramEntry := fun _ _ => none
  bytesRequested : Nat := 0

namespace Sram

/-- The scratchpad (or the accumulator) of core `coreId` as the constructor leaves it. -/
def create (config : SimulationConfig) (accum : Bool) (coreId : Nat) : Sram where
  size :=
    let kb := if accum then (config.coreConfig coreId).accumSpadSize
      else (config.coreConfig coreId).spadSize
    kb * 1024 % 2 ^ 32 / 2
  dataWidth := config.dramReqSize
  accum := accum

def checkHit (s : Sram) (address : AddrType) (bufferId : Nat) : Bool :=
  match s.cacheTable bufferId address with
  | none => false
  | some e => e.valid

def checkRemain (s : Sram) (size bufferId : Nat) : Bool :=
  (s.currentSize bufferId + size) * s.dataWidth ≤ s.size

def checkAllocated (s : Sram) (address : AddrType) (bufferId : Nat) : Bool :=
  (s.cacheTable bufferId address).isSome

def setEntry (s : Sram) (bufferId : Nat) (address : AddrType) (e : SramEntry) : Sram :=
  { s with
    cacheTable := Function.update s.cacheTable bufferId
      (Function.update (s.cacheTable bufferId) address (some e)) }

def flush (s : Sram) (bufferId : Nat) : Sram :=
  { s with
    currentSize := Function.update s.currentSize bufferId 0
    cacheTable := Function.update s.cacheTable bufferId fun _ => none }

/-- Allocates a destination that waits for `count` answers. The source asserts that the destination
is not allocated yet, except in the accumulator, where it returns 0; every caller exits on 0. -/
def prefetch (s : Sram) (address : AddrType) (bufferId allocatedSize count : Nat) : Option Sram :=
  if s.checkAllocated address bufferId then none
  else if s.checkRemain allocatedSize bufferId then
    some ({ s with
      currentSize := Function.update s.currentSize bufferId (s.currentSize bufferId + allocatedSize)
      bytesRequested := s.bytesRequested + allocatedSize * s.dataWidth }.setEntry bufferId address
        { valid := false, size := allocatedSize, remainReqCount := count })
  else none

/-- One answer for an allocated destination; the last one makes it valid. -/
def fill (s : Sram) (address : AddrType) (bufferId : Nat) : Option Sram := do
  let e ← s.cacheTable bufferId address
  if 0 < e.remainReqCount ∧ !e.valid then
    let remain := e.remainReqCount - 1
    some (s.setEntry bufferId address
      { e with remainReqCount := remain, valid := remain == 0 })
  else none

def countUp (s : Sram) (address : AddrType) (bufferId : Nat) : Option Sram := do
  let e ← s.cacheTable bufferId address
  some (s.setEntry bufferId address
    { e with remainReqCount := e.remainReqCount + 1, valid := false })

/-! ## What the operations leave alone -/

theorem prefetch_eq_some {s s' : Sram} {address : AddrType} {bufferId allocatedSize count : Nat}
    (h : s.prefetch address bufferId allocatedSize count = some s') :
    (s.currentSize bufferId + allocatedSize) * s.dataWidth ≤ s.size ∧
    s'.bytesRequested = s.bytesRequested + allocatedSize * s.dataWidth ∧
    s'.size = s.size ∧ s'.dataWidth = s.dataWidth := by
  unfold prefetch at h
  split at h
  · cases h
  · split at h
    · rename_i hremain
      obtain rfl := Option.some.inj h
      exact ⟨by simpa [checkRemain] using hremain, rfl, rfl, rfl⟩
    · cases h

theorem fill_eq_some {s s' : Sram} {address : AddrType} {bufferId : Nat}
    (h : s.fill address bufferId = some s') :
    s'.bytesRequested = s.bytesRequested ∧ s'.size = s.size ∧ s'.dataWidth = s.dataWidth := by
  obtain ⟨e, -, h⟩ := Option.bind_eq_some_iff.mp h
  split at h
  · obtain rfl := Option.some.inj h
    exact ⟨rfl, rfl, rfl⟩
  · cases h

theorem countUp_eq_some {s s' : Sram} {address : AddrType} {bufferId : Nat}
    (h : s.countUp address bufferId = some s') :
    s'.bytesRequested = s.bytesRequested ∧ s'.size = s.size ∧ s'.dataWidth = s.dataWidth := by
  obtain ⟨e, -, h⟩ := Option.bind_eq_some_iff.mp h
  obtain rfl := Option.some.inj h
  exact ⟨rfl, rfl, rfl⟩

end Sram

end OnnxSim
