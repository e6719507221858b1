import OnnxSim.Common
import OnnxSim.Sram

/-!
# A core

`Core` of `Core.cc` with `SystolicWS` of `SystolicWS.cc`, the only kind of core whose `cycle` is
implemented. The two scratchpads, the tiles being run, the two pipelines, the three instruction
queues and the queue of memory requests are the source's; the statistics it prints are left out.
A failed assertion, an `exit`, a division by zero and the use of a null or dangling pointer are
`none`.
-/

namespace OnnxSim

structure Core where
  id : Nat
  coreCycle : Nat := 0
  tileRr : Nat := 0
  tiles : List Tile := []
  finishedTiles : List Tile := []
  computePipeline : List Instruction := []
  vectorPipeline : List Instruction := []
  ldInstQueue : List Instruction := []
  /-- A store that misses leaves a null pointer at the front of the queue. -/
  stInstQueue : List (Option Instruction) := []
  exInstQueue : List Instruction := []
  requestQueue : List MemoryAccess := []
  waitingWriteReqs : Nat := 0
  /-- Not initialised by the constructor, like `currentFusedOpId`. -/
  currentLayerId : Nat
  currentFusedOpId : Nat
  spad : Sram
  accSpad : Sram
  /-- The counter of `generate_mem_access_id`, shared by all cores. -/
  nextAccessId : Nat := 0
  /-- The memory instructions executed so far, each with the accesses it made. No function reads
  this field. -/
  transfers : List (Instruction × List MemoryAccess) := []

/-- `inst->dest_addr >= ACCUM_SPAD_BASE`: the destination lies in the accumulator. -/
def Instruction.toAccum (inst : Instruction) : Bool := ACCUM_SPAD_BASE ≤ inst.destAddr

/-- The buffer of the scratchpad that holds the destination. -/
def Instruction.bufferId (inst : Instruction) : Nat :=
  if inst.toAccum then inst.accumSpadId else inst.spadId

/-- `instructions.empty() && inst_finished`. -/
def Tile.ready (t : Tile) : Bool := t.instructions.isEmpty && t.instFinished

/-- Sets `inst_finished` in the tile at `p`. -/
def Tile.finishAt (p : TilePtr) (t : Tile) : Tile :=
  if t.ptr = p then { t with instFinished := true } else t

namespace Core

/-- The core as its constructor leaves it, with what happens to be in the two fields that it does
not initialise. -/
def init (config : SimulationConfig) (id layerId fusedOpId : Nat) : Core where
  id := id
  currentLayerId := layerId
  currentFusedOpId := fusedOpId
  spad := Sram.create config false id
  accSpad := Sram.create config true id

/-- The scratchpad (`false`) or the accumulator (`true`). -/
def buffer (c : Core) : Bool → Sram
  | false => c.spad
  | true => c.accSpad

def setBuffer (c : Core) : Bool → Sram → Core
  | false, s => { c with spad := s }
  | true, s => { c with accSpad := s }

/-- Fills the destination of `inst`. -/
def fillDest (c : Core) (inst : Instruction) : Option Core := do
  let s ← (c.buffer inst.toAccum).fill inst.destAddr inst.bufferId
  some (c.setBuffer inst.toAccum s)

/-- `my_tile->inst_finished = true`: a tile that runs or has just finished is still allocated. -/
def setInstFinished (c : Core) (p : Option TilePtr) : Option Core := do
  let p ← p
  if (c.tiles ++ c.finishedTiles).any (·.ptr == p) then
    some { c with
      tiles := c.tiles.map (Tile.finishAt p), finishedTiles := c.finishedTiles.map (Tile.finishAt p) }
  else none

/-- `if (inst->last_inst) inst->my_tile->inst_finished = true`. -/
def noteLast (c : Core) (inst : Instruction) : Option Core :=
  if inst.lastInst then c.setInstFinished inst.myTile else some c

/-! ## The interface to the scheduler and to the memory -/

def canIssue (c : Core) : Bool := c.tiles.length < 2

def nextBuffer (b : Nat) : Nat := (b + 1) % 2

/-- An accumulating tile of the same layer keeps the accumulator buffer of the tile before it. -/
def keepsAccum (c : Core) (op : Tile) : Bool :=
  op.accum && c.currentLayerId == op.layerId && c.currentFusedOpId == op.fusedOpId

/-- What `Core::issue` writes into the tile: its buffers, its status and its start cycle. -/
def assignBuffers (c : Core) (op : Tile) : Tile :=
  let (spadId, accSpadId) := match c.tiles with
    | [t] => (t.spadId, t.accumSpadId)
    | _ => (0, 0)
  { op with
    stat := { startCycle := c.coreCycle }
    spadId := nextBuffer spadId
    accumSpadId := if c.keepsAccum op then accSpadId else nextBuffer accSpadId
    status := .RUNNING }

/-- `Core::issue`. -/
def issue (c : Core) (op : Tile) : Core :=
  let op' := c.assignBuffers op
  let c := { c with
    spad := c.spad.flush op'.spadId
    accSpad := if c.keepsAccum op then c.accSpad else c.accSpad.flush op'.accumSpadId
    currentLayerId := op.layerId
    currentFusedOpId := op.fusedOpId }
  if op.skip then { c with finishedTiles := c.finishedTiles ++ [{ op' with status := .FINISH }] }
  else { c with tiles := c.tiles ++ [op'] }

/-- `Core::pop_finished_tile`: an empty tile when none has finished. -/
def popFinishedTile (c : Core) : Tile × Core :=
  (c.finishedTiles.headD { status := .EMPTY }, { c with finishedTiles := c.finishedTiles.tail })

/-- `Core::pop_memory_request`. -/
def popMemoryRequest (c : Core) : Option (MemoryAccess × Core) :=
  match c.requestQueue with
  | [] => none
  | m :: rest => some (m, { c with requestQueue := rest })

/-- `Core::push_memory_response`. -/
def pushMemoryResponse (c : Core) (response : MemoryAccess) : Option Core :=
  if response.request then none
  else if response.write then
    some { c with waitingWriteReqs := (c.waitingWriteReqs + 2 ^ 32 - 1) % 2 ^ 32 }
  else if ACCUM_SPAD_BASE ≤ response.spadAddress then do
    let s ← c.accSpad.fill response.spadAddress response.bufferId
    some { c with accSpad := s }
  else do
    let s ← c.spad.fill response.spadAddress response.bufferId
    some { c with spad := s }

/-! ## The pipelines -/

/-- `Core::finish_compute_pipeline`. -/
def finishComputePipeline (c : Core) : Option Core :=
  match c.computePipeline with
  | [] => some c
  | inst :: rest =>
    if inst.finishCycle ≤ c.coreCycle then do
      let c ← c.fillDest inst
      let c ← c.noteLast inst
      some { c with computePipeline := rest }
    else some c

/-- `Core::finish_vector_pipeline`. -/
def finishVectorPipeline (c : Core) : Option Core :=
  match c.vectorPipeline with
  | [] => some c
  | inst :: rest =>
    if inst.finishCycle ≤ c.coreCycle then do
      let c ← c.fillDest inst
      let c ← c.noteLast inst
      some { c with vectorPipeline := rest }
    else some c

/-- `Core::can_issue_compute`: every source is valid. -/
def operandsReady (c : Core) (inst : Instruction) : Bool :=
  inst.srcAddrs.all fun addr =>
    if inst.srcFromAccum && decide (ACCUM_SPAD_BASE ≤ addr) then
      c.accSpad.checkHit addr inst.accumSpadId
    else c.spad.checkHit addr inst.spadId

/-- `opcode == GEMM || opcode == GEMM_PRELOAD`. -/
def isGemm : Opcode → Bool
  | .GEMM | .GEMM_PRELOAD => true
  | _ => false

variable (config : SimulationConfig)

/-- `SystolicWS::can_issue_compute`. -/
def canIssueCompute (c : Core) (inst : Instruction) : Bool :=
  c.operandsReady inst &&
    if isGemm inst.opcode then
      decide (c.computePipeline.length < (config.coreConfig c.id).coreHeight)
    else c.vectorPipeline.isEmpty

/-- `SystolicWS::get_inst_compute_cycles`. -/
def getInstComputeCycles (c : Core) (inst : Instruction) : Nat :=
  (config.coreConfig c.id).coreHeight + (config.coreConfig c.id).coreWidth
    + max inst.computeSize 4 - 2

/-- `vector_process_bit >> 3`. -/
def calculationUnit (c : Core) : Nat := (config.coreConfig c.id).vectorProcessBit >>> 3

def ceilDivUnit (unit vectorSize : Nat) : Nat :=
  if vectorSize % unit ≠ 0 then vectorSize / unit + 1 else vectorSize / unit

/-- `Core::calculate_vector_op_iterations`. -/
def calculateVectorOpIterations (unit vectorSize : Nat) : Option Nat :=
  if unit = 0 then none else some (ceilDivUnit unit vectorSize)

/-- `Core::calculate_add_tree_iterations`. With a unit of one element the recursion of the source
never ends. -/
def calculateAddTreeIterations (unit : Nat) : Nat → Nat → Option Nat
  | 0, _ => none
  | fuel + 1, vectorSize =>
    if vectorSize ≤ unit then some 1
    else if unit = 0 then none
    else do
      let rest ← calculateAddTreeIterations unit fuel (ceilDivUnit unit vectorSize)
      some (ceilDivUnit unit vectorSize + rest)

/-- `SystolicWS::get_vector_compute_cycles`. -/
def getVectorComputeCycles (c : Core) (inst : Instruction) : Option Nat := do
  let cfg := config.coreConfig c.id
  let unit := calculationUnit config c
  let vecOpIter ← calculateVectorOpIterations unit inst.computeSize
  let addTreeIter ← calculateAddTreeIterations unit (inst.computeSize + 1) inst.computeSize
  match inst.opcode with
  | .LAYERNORM =>
    let addTree := 2 * addTreeIter * cfg.addTreeLatency
    let scalarOps := 2 * cfg.scalarMulLatency + cfg.scalarSqrtLatency
    let vectorOps := vecOpIter * (2 * cfg.addLatency + 3 * cfg.mulLatency) * inst.tileM
    some (addTree + scalarOps + vectorOps)
  | .SOFTMAX =>
    let addTree := 2 * addTreeIter * cfg.addTreeLatency * inst.tileM
    let vectorOps := vecOpIter * (cfg.addLatency + cfg.expLatency + cfg.mulLatency)
    some (addTree + vectorOps)
  | .ADD => some (vecOpIter * cfg.addLatency)
  | .MUL => some (vecOpIter * cfg.mulLatency)
  | .MAC => some (vecOpIter * cfg.macLatency)
  | .SWISH | .GELU => some (vecOpIter * cfg.geluLatency)
  | .COMP => some (vecOpIter * 1)
  | .ADDTREE => some (addTreeIter * cfg.addTreeLatency * inst.tileM)
  | .DIV => some (vecOpIter * cfg.divLatency)
  | .EXP => some (vecOpIter * cfg.expLatency)
  | _ => some 0

/-! ## The instruction queues -/

/-- `front->size * _config.dram_req_size`, a `uint32_t`. -/
def objSize (inst : Instruction) : Nat := inst.size * config.dramReqSize % 2 ^ 32

/-- The access that a load or a store makes for one of its source addresses. -/
def accessFor (c : Core) (inst : Instruction) (write : Bool) (n : Nat) (addr : AddrType) :
    MemoryAccess :=
  { ptr := .heap n
    id := n % 2 ^ 32
    dramAddress := addr + inst.baseAddr
    spadAddress := inst.destAddr
    size := objSize config inst
    objectSize := objSize config inst
    write := write
    request := true
    coreId := BitVec.ofNat 32 c.id
    startCycle := c.coreCycle
    bufferId := inst.bufferId }

/-- The loop over `src_addrs`: one access for each of them. -/
def accessesOf (c : Core) (inst : Instruction) (write : Bool) : List MemoryAccess :=
  inst.srcAddrs.mapIdx fun i addr => accessFor config c inst write (c.nextAccessId + i) addr

/-- Pushes the accesses of `inst` into the request queue. -/
def request (c : Core) (inst : Instruction) (write : Bool) : Option Core :=
  if inst.srcAddrs ≠ [] ∧ inst.baseAddr = GARBEGE_ADDR then none
  else
    let accesses := accessesOf config c inst write
    some { c with
      requestQueue := c.requestQueue ++ accesses
      nextAccessId := c.nextAccessId + inst.srcAddrs.length
      transfers := c.transfers ++ [(inst, accesses)] }

/-- `Core::handle_ld_inst_queue`. -/
def handleLdInstQueue (c : Core) : Option Core :=
  match c.ldInstQueue with
  | [] => some c
  | front :: rest =>
    if front.opcode = .MOVIN then do
      let s ← (c.buffer front.toAccum).prefetch front.destAddr front.bufferId front.size front.size
      let c ← (c.setBuffer front.toAccum s).request config front false
      some { c with ldInstQueue := rest }
    else none

/-- `opcode == MOVOUT || opcode == MOVOUT_POOL`. -/
def isStore : Opcode → Bool
  | .MOVOUT | .MOVOUT_POOL => true
  | _ => false

/-- `Core::handle_st_inst_queue`. -/
def handleStInstQueue (c : Core) : Option Core :=
  match c.stInstQueue with
  | [] => some c
  | none :: _ => none
  | some front :: rest =>
    if isStore front.opcode then
      if (c.buffer front.toAccum).checkHit front.destAddr front.bufferId then do
        let c ← c.request config front true
        let c := { c with
          waitingWriteReqs := (c.waitingWriteReqs + front.srcAddrs.length) % 2 ^ 32 }
        let c ← c.noteLast front
        some { c with stInstQueue := rest }
      else some { c with stInstQueue := none :: rest }
    else none

/-- Allocates the destination of a compute instruction, or counts one more result for it. -/
def allocIn (s : Sram) (inst : Instruction) : Option Sram :=
  if s.checkAllocated inst.destAddr inst.bufferId then s.countUp inst.destAddr inst.bufferId
  else s.prefetch inst.destAddr inst.bufferId inst.size (if inst.zeroInit then inst.size else 1)

def allocDest (c : Core) (inst : Instruction) : Option Core := do
  let s ← allocIn (c.buffer inst.toAccum) inst
  some (c.setBuffer inst.toAccum s)

/-- When a matrix instruction starts: behind the last one in the pipeline, or at once. -/
def gemmStart (c : Core) (inst : Instruction) : Nat :=
  let height := (config.coreConfig c.id).coreHeight
  match c.computePipeline.getLast? with
  | some back =>
    let offset := max back.computeSize 4
    let offset := if inst.opcode = .GEMM_PRELOAD then max offset height else offset
    if back.startCycle + offset < c.coreCycle then c.coreCycle else back.startCycle + offset
  | none => if inst.opcode = .GEMM_PRELOAD then c.coreCycle + (height + height - 1) else c.coreCycle

/-- The execute queue's part of `SystolicWS::cycle`. -/
def handleExInstQueue (c : Core) : Option Core :=
  match c.exInstQueue with
  | [] => some c
  | front :: rest =>
    if canIssueCompute config c front then do
      let c ← c.allocDest front
      if isGemm front.opcode then
        let start := gemmStart config c front
        let front := { front with
          startCycle := start, finishCycle := start + getInstComputeCycles config c front }
        some { c with computePipeline := c.computePipeline ++ [front], exInstQueue := rest }
      else do
        let cycles ← getVectorComputeCycles config c front
        let front := { front with startCycle := c.coreCycle, finishCycle := c.coreCycle + cycles }
        some { c with vectorPipeline := c.vectorPipeline ++ [front], exInstQueue := rest }
    else some c

/-! ## A cycle -/

/-- What `Core::cycle` writes into the front instruction of a tile before it looks at it. -/
def prepare (t : Tile) (inst : Instruction) : Instruction :=
  let inst := if t.instructions.length = 1 then
    { inst with lastInst := true, myTile := some t.ptr } else inst
  { inst with spadId := t.spadId, accumSpadId := t.accumSpadId, owner := t.ptr }

section Prepare

variable {t : Tile} {i : Instruction}

@[simp] theorem prepare_opcode : (prepare t i).opcode = i.opcode := by
  unfold prepare
  split <;> rfl

@[simp] theorem prepare_destAddr : (prepare t i).destAddr = i.destAddr := by
  unfold prepare
  split <;> rfl

@[simp] theorem prepare_srcAddrs : (prepare t i).srcAddrs = i.srcAddrs := by
  unfold prepare
  split <;> rfl

@[simp] theorem prepare_srcFromAccum : (prepare t i).srcFromAccum = i.srcFromAccum := by
  unfold prepare
  split <;> rfl

@[simp] theorem prepare_size : (prepare t i).size = i.size := by
  unfold prepare
  split <;> rfl

@[simp] theorem prepare_baseAddr : (prepare t i).baseAddr = i.baseAddr := by
  unfold prepare
  split <;> rfl

end Prepare

/-- Moves a prepared instruction into its queue; the inner `none` when it has to wait. -/
def tryIssue (c : Core) (inst : Instruction) : Option (Option Core) :=
  let s := c.buffer inst.toAccum
  if inst.opcode = .MOVIN then
    if !s.checkAllocated inst.destAddr inst.bufferId && s.checkRemain inst.size inst.bufferId then
      some (some { c with ldInstQueue := c.ldInstQueue ++ [inst] })
    else none
  else if isStore inst.opcode then
    if s.checkHit inst.destAddr inst.bufferId then
      some (some { c with stInstQueue := c.stInstQueue ++ [some inst] })
    else some none
  else if c.exInstQueue.isEmpty && canIssueCompute config c inst then
    some (some { c with exInstQueue := c.exInstQueue ++ [inst] })
  else some none

/-- The issue loop of `Core::cycle` over the tiles still to visit: at most one instruction is
issued. -/
def issueFrom (c : Core) : List Nat → Option Core
  | [] => some c
  | i :: rest =>
    match c.tiles[i]? with
    | none => none
    | some t =>
      match t.instructions with
      | [] => issueFrom c rest
      | inst :: insts => do
        let inst := prepare t inst
        let c := { c with tiles := c.tiles.set i { t with instructions := inst :: insts } }
        match ← tryIssue config c inst with
        | some c =>
          some { c with tiles := c.tiles.set i { t with instructions := insts }, tileRr := i }
        | none => issueFrom c rest

/-- The order in which the issue loop visits the tiles. -/
def issueOrder (c : Core) : List Nat :=
  (List.range c.tiles.length).map fun k => (k + c.tileRr) % c.tiles.length

/-- `Core::cycle` up to its retirement loop. -/
def issueInstructions (c : Core) : Option Core :=
  let c := { c with coreCycle := c.coreCycle + 1 }
  issueFrom config c (issueOrder c)

/-- What the retirement loop writes into the tile that it moves to `_finished_tiles`. -/
def finishTile (c : Core) (t : Tile) : Tile :=
  let cycles := c.coreCycle - t.stat.startCycle
  { t with
    status := .FINISH
    stat := { t.stat with cycles := cycles, memoryStall := cycles - t.stat.computeCycles } }

/-- The retirement loop of `Core::cycle`. The call that logged the tiles is commented out, so the
test of the cycle number that stood before it guards the test of the tile. -/
def retire (c : Core) : Core :=
  match c.tiles.findIdx? (fun t => decide (c.coreCycle % 8000 = 0) && t.ready) with
  | none => c
  | some i =>
    match c.tiles[i]? with
    | none => c
    | some t =>
      { c with tiles := c.tiles.eraseIdx i, finishedTiles := c.finishedTiles ++ [finishTile c t] }

/-- `SystolicWS::cycle` up to its call of `Core::cycle`. -/
def handlePipelines (c : Core) : Option Core := do
  let c ← c.finishComputePipeline
  let c ← c.finishVectorPipeline
  let c ← handleLdInstQueue config c
  let c ← handleExInstQueue config c
  handleStInstQueue config c

/-- A call of `cycle` up to the retirement loop of `Core::cycle`. `SystolicOS::cycle` asserts
false. -/
def beforeRetirement (c : Core) : Option Core :=
  match (config.coreConfig c.id).coreType with
  | .SYSTOLIC_OS => none
  | .SYSTOLIC_WS => do
    let c ← handlePipelines config c
    issueInstructions config c

/-- `SystolicWS::cycle`. -/
def cycle (c : Core) : Option Core := do
  let c ← beforeRetirement config c
  some c.retire

end Core

end OnnxSim
