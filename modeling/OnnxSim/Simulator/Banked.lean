import OnnxSim.Cache.Bank
import OnnxSim.Simulator

/-!
# The path of a memory access with L2

`Simulator::cycle` of `Simulator.cc` for both values of `_use_l2`. With L2 a bank stands before each
memory channel: it takes what the interconnect delivers, hands its misses and its writebacks to the
DRAM, takes the DRAM's answers, and sends its own to the interconnect. Without L2 the path is that of
`MemorySystem`.
-/

namespace OnnxSim

/-- A `Simulator`; `banks` is `_l2_banks`. -/
structure BankedSystem extends MemorySystem where
  banks : Nat → Cache := fun _ => .init

namespace BankedSystem

/-- The constructor. -/
def init (config : SimulationConfig) (latency : Nat) (layerId fusedOpId : Nat → Nat) :
    BankedSystem where
  toMemorySystem := .init config latency layerId fusedOpId

def setBank (s : BankedSystem) (mem : Nat) (l2 : Cache) : BankedSystem :=
  { s with banks := Function.update s.banks mem l2 }

/-- `_dram->push(mem, access)`. -/
def pushDram (s : BankedSystem) (mem : Nat) (access : MemoryAccess) : BankedSystem :=
  { s with dram := { s.dram with
      waiting := Function.update s.dram.waiting mem (s.dram.waiting mem ++ [access]) } }

variable (config : SimulationConfig)

/-! ## The interconnect's part of `cycle` -/

/-- ICNT → L2 -/
def toBank (s : BankedSystem) (mem : Nat) : Option BankedSystem :=
  let node := config.numCores * config.icntInjectionPortsPerCore + mem
  match s.icnt.outBuffers node with
  | [] => some s
  | front :: _ => do
    let icnt ← s.icnt.pop node
    some ({ s with icnt := icnt }.setBank mem ((s.banks mem).pushRequest front))

/-- L2 MISS → DRAM; `full` is what `is_full` of the DRAM returns. -/
def missToDram (s : BankedSystem) (full : Nat → Bool) (mem : Nat) : BankedSystem :=
  match (s.banks mem).missQ with
  | [] => s
  | miss :: _ =>
    if full mem then s else (s.pushDram mem miss).setBank mem (s.banks mem).popMissRequest

/-- L2 WB → DRAM -/
def wbToDram (s : BankedSystem) (full : Nat → Bool) (mem : Nat) : BankedSystem :=
  match (s.banks mem).wbQ with
  | [] => s
  | wb :: _ =>
    if full mem then s else (s.pushDram mem wb).setBank mem (s.banks mem).popWbRequest

/-- DRAM → L2 -/
def dramToBank (s : BankedSystem) (mem : Nat) : BankedSystem :=
  match s.dram.responses mem with
  | [] => s
  | resp :: rest =>
    { s with dram := { s.dram with
        responses := Function.update s.dram.responses mem rest } }.setBank mem
          ((s.banks mem).pushMemoryResponse resp)

/-- L2 → ICNT. A response to a core that does not exist stays where it is. -/
def fromBank (s : BankedSystem) (mem : Nat) : Option BankedSystem :=
  let node := config.numCores * config.icntInjectionPortsPerCore + mem
  match (s.banks mem).outQ with
  | [] => some s
  | resp :: _ =>
    if config.numCores ≤ resp.coreId.toNat ∨ resp.coreId.toInt < 0 then some s
    else if s.icnt.isFull node resp then some s
    else do
      let dest ← getDestNode config resp
      some ({ s with icnt := s.icnt.push node dest resp }.setBank mem (s.banks mem).popResponse)

/-- The body of the loop over the memories. The DRAM is asked twice whether it is full. -/
def bank (s : BankedSystem) (full fullWb : Nat → Bool) (mem : Nat) : Option BankedSystem := do
  let s ← toBank config s mem
  fromBank config (((s.missToDram full mem).wbToDram fullWb mem).dramToBank mem) mem

/-- `_cycle_mask & ICNT_MASK`. -/
def icntTick (s : BankedSystem) (full fullWb : Nat → Bool) : Option BankedSystem :=
  if config.useL2 then do
    let base ← (List.range config.numCores).foldlM
      (fun s core => (List.range config.icntInjectionPortsPerCore).foldlM
        (fun s noc => MemorySystem.corePort config s core noc) s) s.toMemorySystem
    let s ← (List.range config.dramChannels).foldlM
      (fun s mem => bank config s full fullWb mem) { s with toMemorySystem := base }
    some { s with icnt := s.icnt.cycle }
  else do
    let base ← MemorySystem.icntTick config s.toMemorySystem full
    some { s with toMemorySystem := base }

/-- `_cycle_mask & DRAM_MASK`, without the DRAM. -/
def l2Tick (s : BankedSystem) : Option BankedSystem :=
  if config.useL2 then
    some { s with banks := fun mem =>
      if mem < config.dramChannels then (s.banks mem).cycle else s.banks mem }
  else none

/-! ## Runs -/

/-- The calls that make up the ticks, with the ticks of the banks. -/
inductive Act
  | issue (core : Nat) (op : Tile)
  | popFinishedTile (core : Nat)
  | coreCycle (core : Nat)
  | answer (channel i : Nat)
  | l2
  | icnt (full fullWb : Nat → Bool)

/-- A call that no bank sees. -/
def onBase (s : BankedSystem) (a : MemorySystem.Act) : Option BankedSystem := do
  let base ← MemorySystem.step config s.toMemorySystem a
  some { s with toMemorySystem := base }

def step (s : BankedSystem) : Act → Option BankedSystem
  | .issue core op => onBase config s (.issue core op)
  | .popFinishedTile core => onBase config s (.popFinishedTile core)
  | .coreCycle core => onBase config s (.coreCycle core)
  | .answer channel i => onBase config s (.answer channel i)
  | .l2 => l2Tick config s
  | .icnt full fullWb => icntTick config s full fullWb

/-- The runs of a simulation, whatever the fields hold that `Core` does not initialise. -/
def Run (latency : Nat) (layerId fusedOpId : Nat → Nat) (h : List (BankedSystem × Act))
    (s : BankedSystem) : Prop :=
  Machine.Run (Machine.partialDet (step config)) (init config latency layerId fusedOpId) h s

end BankedSystem

end OnnxSim
