import OnnxSim.Core.Effects
import OnnxSim.Lib.Scoreboard

/-!
# A core and its memory

The scheduler issues a tile when `can_issue` allows it, the memory takes the requests of the core, and
it answers them in any order and after any time. A read is answered to the entry of the scratchpad that
the load allocated when it made the request. That the entry is still there when the answer comes is up
to `Core::issue`, which flushes buffers.
-/

namespace OnnxSim

structure CoreSystem where
  core : Core
  /-- The requests that the memory has taken and has not answered. -/
  memory : List MemoryAccess := []
  /-- How many loads and stores had been executed when a buffer was last flushed. No function reads
  this field. -/
  flushed : Bool → Nat → Nat := fun _ _ => 0

namespace CoreSystem

inductive Act
  | issue (op : Tile)
  | cycle
  | popFinishedTile
  | popMemoryRequest
  | respond (i : Nat)

/-- A tile on the heap has an address of its own. -/
def step (config : SimulationConfig) (s : CoreSystem) : Act → Option CoreSystem
  | .issue op =>
    if s.core.canIssue && (s.core.tiles ++ s.core.finishedTiles).all (·.ptr != op.ptr) then
      some { s with
        core := s.core.issue op
        flushed := fun accum b =>
          if s.core.flushes op accum b then s.core.transfers.length else s.flushed accum b }
    else none
  | .cycle => do
    let c ← Core.cycle config s.core
    some { s with core := c }
  | .popFinishedTile => some { s with core := s.core.popFinishedTile.2 }
  | .popMemoryRequest => do
    let (m, c) ← s.core.popMemoryRequest
    some { s with core := c, memory := s.memory ++ [m] }
  | .respond i => do
    let m ← s.memory[i]?
    let c ← s.core.pushMemoryResponse m.answered
    some { s with core := c, memory := s.memory.eraseIdx i }

def init (config : SimulationConfig) (id layerId fusedOpId : Nat) : CoreSystem where
  core := Core.init config id layerId fusedOpId

/-- The runs of core `id` with its memory, whatever the two uninitialised fields of the core hold. -/
def Run (config : SimulationConfig) (id layerId fusedOpId : Nat) (h : List (CoreSystem × Act))
    (s : CoreSystem) : Prop :=
  Machine.Run (Machine.partialDet (step config)) (init config id layerId fusedOpId) h s

/-- The reads among the requests that have no answer yet. -/
def reads (s : CoreSystem) : List MemoryAccess :=
  (s.core.requestQueue ++ s.memory).filter (!·.write)

/-- The answer to a read will find an entry that waits for it. The load that made the request has been
executed since the buffer was flushed: it has allocated this entry. -/
structure FindsEntry (s : CoreSystem) (m : MemoryAccess) : Prop where
  waits : ∃ e, s.core.entry m.slot = some e ∧ e.valid = false ∧ 0 < e.remainReqCount
  allocated : ∃ tr ∈ s.core.transfers.drop (s.flushed m.slot.accum m.slot.bufferId),
    tr.1.opcode = .MOVIN ∧ tr.1.slot = m.slot ∧ m ∈ tr.2

/-- Every answer to a read will find its entry. -/
def Answerable (s : CoreSystem) : Prop := ∀ m ∈ s.reads, s.FindsEntry m

/-- `Core::issue` flushes no entry that still waits for a fill. -/
def FlushesSettled (s : CoreSystem) : Act → Prop
  | .issue op => ∀ slot e, s.core.flushes op slot.accum slot.bufferId → s.core.entry slot = some e →
    e.remainReqCount = 0
  | _ => True

end CoreSystem

end OnnxSim
