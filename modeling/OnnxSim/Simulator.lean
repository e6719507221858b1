import OnnxSim.Core.Outgoing
import OnnxSim.Interconnect

/-!
# The path of a memory access

`Simulator::cycle` of `Simulator.cc` without L2: the cores, the simple interconnect and the DRAM. A
core puts its requests into its request queue; a call of the interconnect's part of `cycle` takes at
most one for each port, sends it to the node of its channel, hands what has arrived there to the
DRAM, and brings the DRAM's answers back to a port of their core.

The DRAM is outside: it holds what has been pushed into a channel, and returns each access once, in
any order and after any delay, with `request` set to false.
-/

namespace OnnxSim

open Queues

/-- A DRAM: what each channel holds, and what it offers for `top` and `pop`. -/
structure AbstractDram where
  waiting : Nat → List MemoryAccess := fun _ => []
  responses : Nat → List MemoryAccess := fun _ => []

/-- The cores, the interconnect and the DRAM of a `Simulator`. -/
structure MemorySystem where
  cores : Nat → Core
  icnt : SimpleInterconnect
  dram : AbstractDram := {}
  /-- The counter of `generate_mem_access_id`. -/
  nextAccessId : Nat := 0
  /-- What each core has been given by `push_memory_response`. No function reads this field. -/
  consumed : Nat → List MemoryAccess := fun _ => []

namespace MemorySystem

/-- The constructor, with what happens to be in the fields that `Core` does not initialise. -/
def init (config : SimulationConfig) (latency : Nat) (layerId fusedOpId : Nat → Nat) :
    MemorySystem where
  cores := fun i => Core.init config i (layerId i) (fusedOpId i)
  icnt := .init config.nNodes latency

variable (config : SimulationConfig)

/-! ## The interconnect's part of `cycle` -/

/-- A core that has a request pushes it at one of its ports. -/
def sendRequest (s : MemorySystem) (core port : Nat) : Option MemorySystem :=
  match (s.cores core).requestQueue with
  | [] => some s
  | front :: rest => do
    let front := { front with coreId := BitVec.ofNat 32 core }
    if s.icnt.isFull port front then
      some { s with
        cores := Function.update s.cores core { s.cores core with requestQueue := front :: rest } }
    else do
      let dest ← getDestNode config front
      some { s with
        icnt := s.icnt.push port dest front
        cores := Function.update s.cores core { s.cores core with requestQueue := rest } }

/-- A core takes what has arrived at one of its ports. -/
def takeResponse (s : MemorySystem) (core port : Nat) : Option MemorySystem :=
  match s.icnt.outBuffers port with
  | [] => some s
  | response :: _ => do
    let c ← (s.cores core).pushMemoryResponse response
    let icnt ← s.icnt.pop port
    some { s with
      cores := Function.update s.cores core c
      icnt := icnt
      consumed := Function.update s.consumed core (s.consumed core ++ [response]) }

/-- The body of the loop over the ports of the cores. -/
def corePort (s : MemorySystem) (core noc : Nat) : Option MemorySystem := do
  let port := core * config.icntInjectionPortsPerCore + noc
  let s ← sendRequest config s core port
  takeResponse s core port

/-- The first half of the body of the loop over the memories; `full` is what `is_full` of the DRAM
returns. -/
def toDram (s : MemorySystem) (full : Nat → Bool) (mem : Nat) : Option MemorySystem :=
  let node := config.numCores * config.icntInjectionPortsPerCore + mem
  match s.icnt.outBuffers node with
  | [] => some s
  | front :: _ =>
    if full mem then some s
    else do
      let icnt ← s.icnt.pop node
      some { s with
        icnt := icnt
        dram := { s.dram with
          waiting := Function.update s.dram.waiting mem (s.dram.waiting mem ++ [front]) } }

/-- The second half. -/
def fromDram (s : MemorySystem) (mem : Nat) : Option MemorySystem :=
  let node := config.numCores * config.icntInjectionPortsPerCore + mem
  match s.dram.responses mem with
  | [] => some s
  | front :: rest =>
    if s.icnt.isFull node front then some s
    else do
      let dest ← getDestNode config front
      some { s with
        icnt := s.icnt.push node dest front
        dram := { s.dram with responses := Function.update s.dram.responses mem rest } }

def memory (s : MemorySystem) (full : Nat → Bool) (mem : Nat) : Option MemorySystem := do
  let s ← toDram config s full mem
  fromDram config s mem

/-- `_cycle_mask & ICNT_MASK`. -/
def icntTick (s : MemorySystem) (full : Nat → Bool) : Option MemorySystem := do
  let s ← (List.range config.numCores).foldlM
    (fun s core => (List.range config.icntInjectionPortsPerCore).foldlM
      (fun s noc => corePort config s core noc) s) s
  let s ← (List.range config.dramChannels).foldlM (fun s mem => memory config s full mem) s
  some { s with icnt := s.icnt.cycle }

/-! ## Runs -/

/-- The calls that make up the ticks: of the scheduler and the clock on a core, of the DRAM, which
answers an access it holds, and of the interconnect. -/
inductive Act
  | issue (core : Nat) (op : Tile)
  | popFinishedTile (core : Nat)
  | coreCycle (core : Nat)
  | answer (channel i : Nat)
  | icnt (full : Nat → Bool)

/-- A call on a core, which draws its accesses from the shared counter. -/
def onCore (s : MemorySystem) (core : Nat) (a : Core.Act) : Option MemorySystem := do
  let c ← Core.step config { s.cores core with nextAccessId := s.nextAccessId } a
  some { s with cores := Function.update s.cores core c, nextAccessId := c.nextAccessId }

def step (s : MemorySystem) : Act → Option MemorySystem
  | .issue core op => if core < config.numCores then onCore config s core (.issue op) else none
  | .popFinishedTile core =>
    if core < config.numCores then onCore config s core .popFinishedTile else none
  | .coreCycle core => if core < config.numCores then onCore config s core .cycle else none
  | .answer channel i =>
    match (s.dram.waiting channel)[i]? with
    | none => none
    | some m => if channel < config.dramChannels then
        some { s with dram := {
          waiting := Function.update s.dram.waiting channel ((s.dram.waiting channel).eraseIdx i)
          responses := Function.update s.dram.responses channel
            (s.dram.responses channel ++ [m.answered]) } }
      else none
  | .icnt full => icntTick config s full

/-- The runs of the memory system, whatever the fields hold that `Core` does not initialise. -/
def Run (latency : Nat) (layerId fusedOpId : Nat → Nat) (h : List (MemorySystem × Act))
    (s : MemorySystem) : Prop :=
  Machine.Run (Machine.partialDet (step config)) (init config latency layerId fusedOpId) h s

end MemorySystem

end OnnxSim
