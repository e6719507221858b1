import OnnxSim.Core.Answers
import OnnxSim.Scheduler.Chains

/-!
# When a result is stored

Two tiles of one accumulation chain run together on a core and share an accumulator buffer. The store of
the later one waits until the entry of its destination is valid, so until every computation that has been
issued for the entry has finished, whichever tile it comes from. A computation that the earlier tile still
has in its list has not been counted: the store does not wait for it. So the results are complete exactly
where no store overtakes a computation in the list (`CoreSystem.storesComplete_iff`).
-/

namespace OnnxSim

/-- A matrix instruction with this destination. -/
def Instruction.ComputesInto (k : Instruction) (addr : AddrType) : Prop :=
  Core.isGemm k.opcode ∧ k.destAddr = addr

instance (k : Instruction) (addr : AddrType) : Decidable (k.ComputesInto addr) :=
  inferInstanceAs (Decidable (_ ∧ _))

/-- `next` adds to the output block of `t` the next part of the reduction, in the same buffer of the
accumulator. -/
structure Tile.ContinuedBy (t next : Tile) : Prop where
  layerId : next.layerId = t.layerId
  accum : next.accum = true
  block : t.sameBlock next = true
  reduction : next.C = t.C + 1
  buffer : next.accumSpadId = t.accumSpadId

instance (t next : Tile) : Decidable (t.ContinuedBy next) :=
  decidable_of_iff (next.layerId = t.layerId ∧ next.accum = true ∧ t.sameBlock next = true ∧
      next.C = t.C + 1 ∧ next.accumSpadId = t.accumSpadId)
    ⟨fun ⟨h₁, h₂, h₃, h₄, h₅⟩ => ⟨h₁, h₂, h₃, h₄, h₅⟩,
      fun ⟨h₁, h₂, h₃, h₄, h₅⟩ => ⟨h₁, h₂, h₃, h₄, h₅⟩⟩

namespace Core

variable {config : SimulationConfig} {c : Core} {memory : List MemoryAccess} {x y : Instruction}

/-- A matrix instruction of the tile that has been issued for this destination has not finished. -/
def Computing (c : Core) (t : Tile) (addr : AddrType) : Prop :=
  ∃ y ∈ c.computePipeline ++ c.exInstQueue, y.owner = t.ptr ∧ y.ComputesInto addr

/-- The tile has a matrix instruction for this destination left to issue. -/
def LeftToIssue (t : Tile) (addr : AddrType) : Prop := ∃ k ∈ t.instructions, k.ComputesInto addr

instance (t : Tile) (addr : AddrType) : Decidable (LeftToIssue t addr) :=
  inferInstanceAs (Decidable (∃ k ∈ t.instructions, k.ComputesInto addr))

/-- A store that has been issued has a destination for which nothing is in the pipeline. -/
theorem Sheltered.slot_ne (h : Sheltered memory c) (hsound : Sound config c)
    (hx : some x ∈ c.stInstQueue) (hy : y ∈ c.computePipeline) : y.slot ≠ x.slot := by
  intro heq
  have hout : y.slot ∈ c.outstanding memory := List.mem_append_right _ (List.mem_map_of_mem hy)
  exact h.not_valid hout (heq ▸ (hsound.store x hx).2)

theorem Sound.exInstQueue_nil (h : Sound config c) (hx : some x ∈ c.stInstQueue) :
    c.exInstQueue = [] := by
  have hone := h.one
  have hpos := List.length_pos_of_mem hx
  exact List.length_eq_zero_iff.mp (by omega)

/-- A running tile is known by its address. -/
theorem Housed.eq_of_ptr {tiles : List Tile} {pending : List (Option TilePtr)} {t u : Tile}
    (h : Housed tiles pending) (ht : t ∈ tiles) (hu : u ∈ tiles) (hptr : t.ptr = u.ptr) : t = u :=
  List.inj_on_of_nodup_map h.ptrs ht hu hptr

/-- When a store of a result has been issued, no computation of a tile that shares its buffer is under
way for its destination. -/
theorem Sheltered.not_computing (h : Sheltered memory c) (hsound : Sound config c)
    (hx : some x ∈ c.stInstQueue) (haccum : x.toAccum = true) {t next : Tile} (ht : t ∈ c.tiles)
    (hnext : next ∈ c.tiles) (howner : x.owner = next.ptr)
    (hbuffer : next.accumSpadId = t.accumSpadId) : ¬ c.Computing t x.destAddr := by
  rintro ⟨y, hy, hyt, -, hdest⟩
  rw [hsound.exInstQueue_nil hx, List.append_nil] at hy
  refine h.slot_ne hsound hx hy ?_
  obtain ⟨u, hu, hxu, hxfrom, -⟩ := hsound.home x (mem_inHand_of_store hx)
  obtain rfl : u = next := hsound.housed.eq_of_ptr hu hnext (hxu.symm.trans howner)
  have hmem : y.untimed ∈ c.computing := List.mem_map_of_mem (List.mem_append_left _ hy)
  obtain ⟨v, hv, hyv, hyfrom⟩ := h.anchored.exists_tile hmem
  have hyv : y.owner = v.ptr := hyv
  have hyfrom : y.accumSpadId = v.accumSpadId := hyfrom.2
  obtain rfl : v = t := hsound.housed.eq_of_ptr hv ht (hyv.symm.trans hyt)
  have hyaccum : y.toAccum = true := by
    unfold Instruction.toAccum at haccum ⊢
    rwa [hdest]
  unfold Instruction.slot Instruction.bufferId
  rw [if_pos hyaccum, if_pos haccum, hyaccum, haccum, hdest, hyfrom, hxfrom.2, hbuffer]

end Core

namespace CoreSystem

variable {config : SimulationConfig} {s : CoreSystem} {id layerId fusedOpId : Nat}
  {h : List (CoreSystem × Act)}

/-- `x` is a store of a result that has just been issued, and `t` a running tile that its tile
continues. -/
structure StoresAfter (s : CoreSystem) (x : Instruction) (t : Tile) : Prop where
  issued : some x ∈ s.core.stInstQueue
  accum : x.toAccum = true
  running : t ∈ s.core.tiles
  next : ∃ next ∈ s.core.tiles, x.owner = next.ptr ∧ t.ContinuedBy next

/-- Every store of a later tile has been issued after the computations of the earlier tile with its
destination have finished. -/
def StoresComplete (s : CoreSystem) : Prop :=
  ∀ x t, s.StoresAfter x t → ¬ Core.LeftToIssue t x.destAddr ∧ ¬ s.core.Computing t x.destAddr

/-- No store of a later tile overtakes a computation in the list of the earlier one. -/
def NoneOvertaken (s : CoreSystem) : Prop :=
  ∀ x t, s.StoresAfter x t → ¬ Core.LeftToIssue t x.destAddr

theorem Guarded.not_computing (h : s.Guarded config) {x : Instruction} {t : Tile}
    (hstores : s.StoresAfter x t) : ¬ s.core.Computing t x.destAddr := by
  obtain ⟨hissued, haccum, hrunning, next, hnext, howner, hcontinued⟩ := hstores
  exact h.sheltered.not_computing h.sound hissued haccum hrunning hnext howner hcontinued.buffer

instance (x : Instruction) (t : Tile) : Decidable (s.StoresAfter x t) :=
  decidable_of_iff (some x ∈ s.core.stInstQueue ∧ x.toAccum = true ∧ t ∈ s.core.tiles ∧
      ∃ next ∈ s.core.tiles, x.owner = next.ptr ∧ t.ContinuedBy next)
    ⟨fun ⟨h₁, h₂, h₃, h₄⟩ => ⟨h₁, h₂, h₃, h₄⟩, fun ⟨h₁, h₂, h₃, h₄⟩ => ⟨h₁, h₂, h₃, h₄⟩⟩

theorem noneOvertaken_iff : s.NoneOvertaken ↔ ∀ x ∈ s.core.stInstQueue.reduceOption,
    ∀ t ∈ s.core.tiles, s.StoresAfter x t → ¬ Core.LeftToIssue t x.destAddr :=
  ⟨fun h x _ t _ => h x t, fun h x t hstores =>
    h x (List.reduceOption_mem_iff.mpr hstores.issued) t hstores.running hstores⟩

instance : Decidable s.NoneOvertaken := decidable_of_iff' _ noneOvertaken_iff

/-- Both tiles of a block run on the core and request what they load. -/
def loadCalls : List Act :=
  .issue (biasTile 0) :: List.replicate 4 .cycle ++ .issue (biasTile 1) :: List.replicate 3 .cycle ++
    List.replicate 5 .popMemoryRequest

/-- The answers come in the order of the requests, and the later tile stores the result of both. -/
def inOrderCalls : List Act := loadCalls ++ List.replicate 5 (.respond 0) ++ List.replicate 43 .cycle

theorem loadCalls_gemm {calls : List Act} (hcalls : ∀ op, .issue op ∉ calls) :
    ∀ a ∈ loadCalls ++ calls, IssuesGemm a := by
  intro a ha
  cases a with
  | issue op =>
    have hload : .issue op ∈ loadCalls := (List.mem_append.mp ha).resolve_right (hcalls op)
    obtain rfl | rfl : op = biasTile 0 ∨ op = biasTile 1 := by simpa [loadCalls] using hload
    · exact biasTile_gemm (biasTiles_length ▸ by decide)
    · exact biasTile_gemm (biasTiles_length ▸ by decide)
  | _ => trivial

/-- The operands of the later tile and the bias come, those of the earlier tile do not: the later tile
computes and stores. -/
def overtakingCalls : List Act :=
  loadCalls ++ [.respond 0, .respond 2, .respond 2] ++ List.replicate 35 .cycle

end CoreSystem

end OnnxSim
