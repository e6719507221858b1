import OnnxSim.Language.Simulator
import OnnxSim.Simulator.Banked
import OnnxSim.Simulator.ClockDomains

/-!
# The loop of the simulator

`Simulator::cycle`, `handle_model`, `register_model` and `running` of `Simulator.cc`, with everything
that they drive: the heap of models, one of the four schedulers, the cores, the L2 banks, the
interconnect and the three clocks. The loop is cut at the points where something outside decides: which
of the models with the least request time is at the front of the heap, when the DRAM answers, and when
a model is registered, by `main` or by a scheduler that replays one. `Phase` says where the loop is.

The language scheduler is left out: to this loop it is one more caller of `register_model`.
-/

namespace OnnxSim

/-- What a `Simulator` calls of its scheduler. -/
structure SchedulerInterface where
  State : Type
  init : State
  /-- `schedule_model`, with what `generate_id` returns there. -/
  scheduleModel : State → Nat → Model → Option State
  /-- `empty`. -/
  isEmpty : State → Bool
  getTile : State → Nat → Option (Option Tile × State)
  finishTile : State → Nat → Option State

/-- `Scheduler::create`. -/
def SchedulerInterface.create (config : SimulationConfig) : HardwareType → SchedulerInterface
  | .queues type =>
    { State := Scheduler
      init := Scheduler.init config
      scheduleModel := fun s requestId m => s.scheduleModel config type requestId m
      isEmpty := fun s => s.requestQueue.isEmpty
      getTile := fun s core => s.getTile config type core
      finishTile := fun s layerId => s.finishTile config type layerId }
  | .spatialSplit =>
    { State := HalfSplit
      init := {}
      scheduleModel := fun s requestId m => some (s.scheduleModel requestId m)
      isEmpty := fun s => s.requestQueue.isEmpty
      getTile := fun s core => s.getTile core
      finishTile := fun s layerId => s.finishTile layerId }

/-- `Core::running`. -/
def Core.running (c : Core) : Bool :=
  !c.tiles.isEmpty || !c.computePipeline.isEmpty || !c.vectorPipeline.isEmpty ||
    c.waitingWriteReqs != 0 || !c.ldInstQueue.isEmpty || !c.stInstQueue.isEmpty ||
    !c.exInstQueue.isEmpty

/-- A model in the heap. -/
structure PendingModel where
  requestTime : Nat
  /-- What `initialize_model` makes of it, from what `generate_id` would return next, and what
  `generate_id` would return after that. -/
  initializeModel : Nat → Option ({ m : Model // m.Tagged } × Nat)

/-- Where the loop is: at its test, in the loop of `handle_model`, at one of the three parts of the body
of the loop over the cores, at the DRAM's part or at the interconnect's. -/
inductive Phase
  | top
  | launch
  | collect (core : Nat)
  | feed (core : Nat)
  | tick (core : Nat)
  | dram
  | icnt
  deriving Repr, DecidableEq

structure Simulator (sched : SchedulerInterface) where
  /-- The cores, the interconnect, the DRAM and the L2 banks. -/
  memory : BankedSystem
  scheduler : sched.State := sched.init
  clocks : ClockDomains
  /-- `_models`. -/
  models : List PendingModel := []
  coreCycles : Nat := 0
  /-- What `generate_id` would return next. -/
  nextId : Nat := 0
  phase : Phase := .top
  /-- The models that have been scheduled, with what `initialize_model` made of them. No function reads
  this field. -/
  launched : List (PendingModel × Model) := []
  /-- The finished tiles that the cores have handed back. No function reads this field. -/
  collected : List Tile := []

namespace Simulator

variable {sched : SchedulerInterface}

/-- The constructor, with what happens to be in the fields that it does not initialise. -/
def init (sched : SchedulerInterface) (config : SimulationConfig) (latency : Nat)
    (layerId fusedOpId : Nat → Nat) (periods : Domain → Nat) (cycleMask : BitVec 32) :
    Simulator sched where
  memory := .init config latency layerId fusedOpId
  clocks := .start periods cycleMask

variable (config : SimulationConfig)

/-- What `initialize_model` made of the models that have been scheduled. -/
def launchedModels (s : Simulator sched) : List Model := s.launched.map Prod.snd

/-- `Simulator::running` without a language scheduler. `running` of the interconnect and of the DRAM always
returns false. -/
def running (s : Simulator sched) : Bool :=
  !s.models.isEmpty || (List.range config.numCores).any (fun i => (s.memory.cores i).running) ||
    !sched.isEmpty s.scheduler

/-- `_models.front()` may be model `i`: no request time is less. -/
def Front (s : Simulator sched) (m : PendingModel) : Prop :=
  ∀ other ∈ s.models, m.requestTime ≤ other.requestTime

instance (s : Simulator sched) (m : PendingModel) : Decidable (s.Front m) :=
  inferInstanceAs (Decidable (∀ other ∈ s.models, m.requestTime ≤ other.requestTime))

/-- The body of the loop of `handle_model`, with model `i` at the front of the heap. -/
def launch (s : Simulator sched) (i : Nat) : Option (Simulator sched) := do
  let pending ← s.models[i]?
  if s.Front pending ∧ pending.requestTime ≤ s.clocks.coreTime then do
    let (m, nextId) ← pending.initializeModel s.nextId
    let scheduler ← sched.scheduleModel s.scheduler nextId m.val
    some { s with
      models := s.models.eraseIdx i
      scheduler := scheduler
      nextId := nextId + 1
      launched := s.launched ++ [(pending, m.val)] }
  else none

/-- A call on the memory system. -/
def onMemory (s : Simulator sched) (a : BankedSystem.Act) : Option (Simulator sched) := do
  let memory ← s.memory.step config a
  some { s with memory := memory }

/-- A finished tile is taken from core `core`, and the scheduler is told. -/
def collect (s : Simulator sched) (core : Nat) : Option (Simulator sched) := do
  let finished := (s.memory.cores core).popFinishedTile.1
  let s ← s.onMemory config (.popFinishedTile core)
  if finished.status = .FINISH then do
    let scheduler ← sched.finishTile s.scheduler finished.layerId
    some { s with scheduler := scheduler, collected := s.collected ++ [finished] }
  else some s

/-- Core `core` is offered a tile. What `is_accum_tile` returns does not matter to `can_issue`. -/
def feed (s : Simulator sched) (core : Nat) : Option (Simulator sched) :=
  if !sched.isEmpty s.scheduler && (s.memory.cores core).canIssue then do
    let (tile, scheduler) ← sched.getTile s.scheduler core
    let s := { s with scheduler := scheduler }
    match tile with
    | none => some s
    | some tile =>
      if tile.status = .INITIALIZED then s.onMemory config (.issue core tile) else some s
  else some s

inductive Act
  /-- `register_model`; the constructor of the model and its weights have drawn `drawn` identifiers. -/
  | register (m : PendingModel) (drawn : Nat)
  /-- The test of the loop, and `set_cycle_mask`; `busy` is what a language scheduler adds to the test. -/
  | enter (busy : Bool)
  /-- An iteration of the loop of `handle_model`. -/
  | launch (i : Nat)
  /-- `handle_model` returns. -/
  | launched
  /-- The three parts of the body of the loop over the cores. -/
  | collect
  | feed
  | tick
  /-- The end of that loop. -/
  | coresDone
  /-- `_dram->cycle()` lets an access be answered. -/
  | answer (channel i : Nat)
  /-- The DRAM's part ends with the ticks of the L2 banks. -/
  | dram
  /-- The interconnect's part; `full` and `fullWb` are what `is_full` of the DRAM returns. -/
  | icnt (full fullWb : Nat → Bool)

def step (s : Simulator sched) : Act → Option (Simulator sched)
  | .register m drawn => some { s with models := s.models ++ [m], nextId := s.nextId + drawn }
  | .enter busy =>
    if s.phase = .top ∧ (s.running config || busy) then
      let clocks := s.clocks.setCycleMask
      some { s with clocks := clocks, phase := if clocks.Ticked .core then .launch else .dram }
    else none
  | .launch i => if s.phase = .launch then s.launch i else none
  | .launched =>
    if s.phase = .launch ∧ ∀ m ∈ s.models, s.clocks.coreTime < m.requestTime then
      some { s with phase := .collect 0 }
    else none
  | .collect =>
    match s.phase with
    | .collect core =>
      if core < config.numCores then collect config { s with phase := .feed core } core else none
    | _ => none
  | .feed =>
    match s.phase with
    | .feed core => feed config { s with phase := .tick core } core
    | _ => none
  | .tick =>
    match s.phase with
    | .tick core => onMemory config { s with phase := .collect (core + 1) } (.coreCycle core)
    | _ => none
  | .coresDone =>
    if s.phase = .collect config.numCores then
      some { s with coreCycles := s.coreCycles + 1, phase := .dram }
    else none
  | .answer channel i =>
    if s.phase = .dram ∧ s.clocks.Ticked .dram then onMemory config s (.answer channel i) else none
  | .dram =>
    if s.phase = .dram then
      if s.clocks.Ticked .dram ∧ config.useL2 then onMemory config { s with phase := .icnt } .l2
      else some { s with phase := .icnt }
    else none
  | .icnt full fullWb =>
    if s.phase = .icnt then
      if s.clocks.Ticked .icnt then onMemory config { s with phase := .top } (.icnt full fullWb)
      else some { s with phase := .top }
    else none

/-- The runs of a simulation, for any latency of the interconnect and any periods of the clocks,
whatever the fields hold that no constructor initialises. -/
def Run (sched : SchedulerInterface) (config : SimulationConfig)
    (h : List (Simulator sched × Act)) (s : Simulator sched) : Prop :=
  ∃ latency layerId fusedOpId periods cycleMask,
    Machine.Run (Machine.partialDet (step config))
      (init sched config latency layerId fusedOpId periods cycleMask) h s

end Simulator

end OnnxSim
