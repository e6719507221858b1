import OnnxSim.Ramulator.Dram

/-!
# The memory controller

`Controller.h`, `Scheduler.h`, `Refresh.h` and `Request.h`: the queues of a channel, and the call of
`tick` that serves a read whose data is there, refreshes, chooses a request by the policy of the
scheduler and issues the command that the request needs next. `none` stands for a failed assertion.

The row policy is `Opened`: nothing assigns another to `RowPolicy::type`, so `get_victim` returns nothing
and no command is upgraded to one with an autoprecharge. Statistics are left out, but for the row hits,
misses and conflicts, whose lookup asserts.
-/

namespace OnnxSim.Ram

/-! ## Requests -/

structure Request where
  type : RequestType
  isFirstCommand : Bool := true
  addr : AddrType
  addrVec : AddrVec
  coreid : Nat := 0
  arrive : Nat := 0
  depart : Nat := 0
  /-- `orignal_request`. -/
  original : Option MemoryAccess := none
  deriving DecidableEq

/-! ## The table of rows -/

structure RowTable.Entry where
  row : Int
  hits : Nat
  timestamp : Nat
  deriving DecidableEq

abbrev RowTable := List (AddrVec × RowTable.Entry)

namespace RowTable

variable (spec : Spec) (table : RowTable) (cmd : Command) (addrVec : AddrVec)

/-- The numbers down to the bank. -/
def rowgroup : AddrVec := addrVec.take Level.Row.toNat

def find : Option Entry := table.lookup (rowgroup addrVec)

/-- `table.insert`, which keeps an entry that is there. -/
def insert (entry : Entry) : RowTable :=
  match find table addrVec with
  | some _ => table
  | none => table ++ [(rowgroup addrVec, entry)]

/-- An access counts as a hit of its row, which has to be the open one. -/
def access (clk : Nat) : Option RowTable := do
  let entry ← find table addrVec
  if entry.row = addrVec.get Level.Row.toNat then
    some (table.map fun kv =>
      if kv.1 = rowgroup addrVec then
        (kv.1, { kv.2 with hits := kv.2.hits + 1, timestamp := clk })
      else kv)
  else none

/-- The entries of the rows that a command closes are removed, and there is one. -/
def close : Option RowTable :=
  let scope :=
    if spec.isAccessing cmd then Level.Row.toNat - 1 else (spec.scope cmd).toNat
  let removed := fun kv : AddrVec × Entry => kv.1.take (scope + 1) = addrVec.take (scope + 1)
  if table.any (removed ·) then some (table.filter fun kv => ¬ removed kv) else none

def update (clk : Nat) : Option RowTable := do
  let table :=
    if spec.isOpening cmd then insert table addrVec ⟨addrVec.get Level.Row.toNat, 0, clk⟩ else table
  let table ← if spec.isAccessing cmd then access table addrVec clk else some table
  if spec.isClosing cmd then close spec table cmd addrVec else some table

def getHits : Nat :=
  match find table addrVec with
  | none => 0
  | some entry => if entry.row = addrVec.get Level.Row.toNat then entry.hits else 0

end RowTable

/-! ## The controller -/

/-- `Scheduler::Type`. -/
inductive SchedulerType
  | FCFS | FRFCFS | FRFCFS_Cap | FRFCFS_PriorHit
  deriving DecidableEq

structure Refresh where
  clk : Nat := 0
  refreshed : Nat := 0

structure Controller where
  clk : Nat := 0
  channel : DRAM
  scheduler : SchedulerType
  rowtable : RowTable := []
  refresh : Refresh := {}
  readq : List Request := []
  writeq : List Request := []
  actq : List Request := []
  otherq : List Request := []
  pending : List Request := []
  writeMode : Bool := false
  rowHits : Nat := 0
  rowMisses : Nat := 0
  rowConflicts : Nat := 0

/-- The queue that `Queue*` points to. -/
inductive QueueName
  | readq | writeq | actq | otherq
  deriving DecidableEq

/-- What a call of `tick` does outside: the requests called back, and the command issued. -/
structure Outcome where
  served : List Request := []
  issue : Option (Command × AddrVec) := none
  deriving DecidableEq

namespace Controller

variable (spec : Spec) (c : Controller)

/-- `Queue::max`. -/
def queueMax : Nat := 256

def queue : QueueName → List Request
  | .readq => c.readq
  | .writeq => c.writeq
  | .actq => c.actq
  | .otherq => c.otherq

def withQueue (name : QueueName) (q : List Request) : Controller :=
  match name with
  | .readq => { c with readq := q }
  | .writeq => { c with writeq := q }
  | .actq => { c with actq := q }
  | .otherq => { c with otherq := q }

/-- `get_queue`. -/
def getQueue : RequestType → QueueName
  | .READ => .readq
  | .WRITE => .writeq
  | _ => .otherq

def isFull (isWrite : Bool) : Bool :=
  (c.queue (getQueue (if isWrite then .WRITE else .READ))).length = queueMax

/-- `none` where the source returns `false`. -/
def enqueue (req : Request) : Option Controller :=
  let name := getQueue req.type
  if queueMax = (c.queue name).length then none
  else some (c.withQueue name (c.queue name ++ [{ req with arrive := c.clk }]))

def getFirstCmd (req : Request) : Option Command :=
  c.channel.decode spec (spec.translate req.type) req.addrVec

/-- `is_ready` of a command. -/
def isReadyCmd (cmd : Command) (addrVec : AddrVec) : Bool := c.channel.check spec cmd addrVec c.clk

/-- `is_ready` of a request. -/
def isReady (req : Request) : Option Bool :=
  (c.getFirstCmd spec req).map fun cmd => c.isReadyCmd spec cmd req.addrVec

def isRowHit (req : Request) : Option Bool :=
  c.channel.checkRowHit spec (spec.translate req.type) req.addrVec

def isRowOpen (req : Request) : Option Bool :=
  c.channel.checkRowOpen spec (spec.translate req.type) req.addrVec

/-! ### The scheduler -/

/-- An iterator of a queue: a place and the request there. -/
abbrev ReqIter := Nat × Request

/-- The form of the functions of `compare`: a request that has the preference, if one of the two has it
and the other has not, and otherwise the one that arrived first. -/
def compareBy (preferred : Request → Option Bool) (req1 req2 : ReqIter) : Option ReqIter := do
  let ready1 ← preferred req1.2
  let ready2 ← preferred req2.2
  if ready1 ^^ ready2 then some (if ready1 then req1 else req2)
  else some (if req1.2.arrive ≤ req2.2.arrive then req1 else req2)

/-- `cap`. -/
def cap : Nat := 16

/-- What the functions of `compare` prefer. -/
def preferred : SchedulerType → Request → Option Bool
  | .FCFS, _ => some true
  | .FRFCFS, req => c.isReady spec req
  | .FRFCFS_Cap, req =>
    (c.isReady spec req).map fun ready => ready && c.rowtable.getHits req.addrVec ≤ cap
  | .FRFCFS_PriorHit, req => do
    if ← c.isReady spec req then c.isRowHit spec req else some false

/-- `compare`. -/
def compare (type : SchedulerType) : ReqIter → ReqIter → Option ReqIter :=
  compareBy (c.preferred spec type)

/-- The numbers down to where a `PRE` closes: `rowgroup` in `get_head`. -/
def closedBy (req : Request) : AddrVec := req.addrVec.take ((spec.scope .PRE).toNat + 1)

/-- The request can be tried without closing a row that another request hits. -/
def violateHit (hitReqs : List AddrVec) (req : Request) : Option Bool := do
  if ← c.isRowHit spec req then some false
  else if ← c.isRowOpen spec req then some (hitReqs.contains (closedBy spec req)) else some false

/-- The body of the last loop of `get_head`. -/
def tryNext (hitReqs : List AddrVec) (head : Option ReqIter) (itr : ReqIter) :
    Option (Option ReqIter) := do
  if ← c.violateHit spec hitReqs itr.2 then some head
  else
    match head with
    | none => some (some itr)
    | some head => (c.compare spec .FRFCFS head itr).map some

/-- The second half of `get_head`, for `FRFCFS_PriorHit`: the head is not ready or no hit. -/
def getHeadPriorHit (q : List ReqIter) : Option (Option ReqIter) := do
  let hits ← q.filterM fun itr => c.isRowHit spec itr.2
  q.foldlM (c.tryNext spec (hits.map fun itr => closedBy spec itr.2)) none

def getHead (q : List Request) : Option (Option ReqIter) :=
  match q.zipIdx.map fun p => (p.2, p.1) with
  | [] => some none
  | front :: rest => do
    let head ← rest.foldlM (c.compare spec c.scheduler) front
    if c.scheduler = .FRFCFS_PriorHit then
      if ← c.preferred spec .FRFCFS_PriorHit head.2 then some (some head)
      else getHeadPriorHit spec c (front :: rest)
    else some (some head)

/-! ### A call of `tick` -/

/-- `refresh_target`, for a rank. -/
def refreshTarget (rank : Nat) : Option Controller :=
  c.enqueue {
    type := .REFRESH
    addr := BitVec.allOnes 64
    addrVec := [(c.channel.node.id : Int), (rank : Int), -1, -1, -1, -1] }

/-- `inject_refresh`, of ranks. -/
def injectRefresh : Option Controller := do
  let c' ← (List.range c.channel.size).foldlM
    (fun c' i => c'.refreshTarget (c.channel.child i).node.id) c
  some { c' with refresh := { c'.refresh with refreshed := c'.refresh.clk } }

def tickRef : Option Controller :=
  let c := { c with refresh := { c.refresh with clk := c.refresh.clk + 1 } }
  if spec.nREFI ≤ c.refresh.clk - c.refresh.refreshed then c.injectRefresh else some c

/-- `channel->update_serving_requests`. -/
def updateServingRequests (addrVec : AddrVec) (delta : Int) : Option Controller :=
  (c.channel.updateServingRequests addrVec delta c.clk).map fun channel => { c with channel := channel }

/-- Part 1: serve completed reads. -/
def serve : Option (Controller × List Request) :=
  match c.pending with
  | [] => some (c, [])
  | req :: rest =>
    if req.type = .READ then
      if req.depart ≤ c.clk then do
        let c ← if 1 < req.depart - req.arrive then c.updateServingRequests req.addrVec (-1) else some c
        some ({ c with pending := rest }, [req])
      else some (c, [])
    else none

/-- `int(wr_high_watermark * writeq.max)`. -/
def highWatermark : Nat := 204

/-- `int(wr_low_watermark * writeq.max)`. -/
def lowWatermark : Nat := 51

/-- Part 3: should we schedule writes? -/
def schedule : Controller :=
  if !c.writeMode then
    if highWatermark < c.writeq.length ∨ c.readq.length = 0 then { c with writeMode := true } else c
  else
    if c.writeq.length < lowWatermark ∧ c.readq.length ≠ 0 then { c with writeMode := false } else c

/-- The head of a queue, if it is ready, with the command that it needs. -/
def readyHead (name : QueueName) : Option (Option (ReqIter × Command)) := do
  match ← c.getHead spec (c.queue name) with
  | none => some none
  | some req =>
    let cmd ← c.getFirstCmd spec req.2
    some (if c.isReadyCmd spec cmd req.2.addrVec then some (req, cmd) else none)

/-- Part 4: find the best command to schedule, if any. -/
def choose : Option (Option (QueueName × ReqIter × Command)) := do
  match ← c.readyHead spec .actq with
  | some found => some (some (.actq, found))
  | none =>
    let name := if c.otherq.length ≠ 0 then .otherq else if c.writeMode then .writeq else .readq
    let found ← c.readyHead spec name
    some (found.map fun found => (name, found))

/-- The row hits, misses and conflicts. -/
def countRow (req : Request) : Option Controller := do
  if ← c.isRowHit spec req then some { c with rowHits := c.rowHits + 1 }
  else if ← c.isRowOpen spec req then some { c with rowConflicts := c.rowConflicts + 1 }
  else some { c with rowMisses := c.rowMisses + 1 }

/-- What is done at the first command of a request. -/
def firstCommand (name : QueueName) (req : ReqIter) : Option Controller :=
  if req.2.isFirstCommand then do
    let c := c.withQueue name ((c.queue name).set req.1 { req.2 with isFirstCommand := false })
    if req.2.type = .READ ∨ req.2.type = .WRITE then do
      let c ← c.updateServingRequests req.2.addrVec 1
      c.countRow spec req.2
    else some c
  else some c

/-- `issue_cmd`. -/
def issueCmd (cmd : Command) (addrVec : AddrVec) : Option Controller :=
  if c.isReadyCmd spec cmd addrVec then do
    let rowtable ← c.rowtable.update spec cmd addrVec c.clk
    some { c with channel := c.channel.update spec cmd addrVec c.clk, rowtable := rowtable }
  else none

/-- `queue->q.erase(req)`. -/
def erase (name : QueueName) (i : Nat) : Controller := c.withQueue name ((c.queue name).eraseIdx i)

/-- What follows the issue of a command that does not finish the request. -/
def promote (name : QueueName) (req : ReqIter) (cmd : Command) : Controller :=
  if spec.isOpening cmd then ({ c with actq := c.actq ++ [req.2] } : Controller).erase name req.1 else c

/-- What follows the issue of the command that finishes the request. -/
def finish (name : QueueName) (req : ReqIter) : Option (Controller × List Request) := do
  let c := if req.2.type = .READ then
    { c with pending := c.pending ++ [{ req.2 with depart := c.clk + spec.readLatency }] } else c
  if req.2.type = .WRITE ∨ req.2.type = .PIM_WRITE then do
    let c ← c.updateServingRequests req.2.addrVec (-1)
    some (c.erase name req.1, [req.2])
  else some (c.erase name req.1, [])

/-- Part 4, for a request that has been found. -/
def issue (name : QueueName) (req : ReqIter) (cmd : Command) :
    Option (Controller × List Request) := do
  let c ← c.firstCommand spec name req
  let req : ReqIter := (req.1, { req.2 with isFirstCommand := false })
  let c ← c.issueCmd spec cmd req.2.addrVec
  if cmd ≠ spec.translate req.2.type then some (c.promote spec name req cmd, [])
  else c.finish spec name req

def tick : Option (Controller × Outcome) := do
  let c := { c with clk := c.clk + 1 }
  let (c, reads) ← c.serve
  let c ← c.tickRef spec
  let c := c.schedule
  match ← c.choose spec with
  | none => some (c, { served := reads })
  | some (name, req, cmd) => do
    let (c, writes) ← c.issue spec name req cmd
    some (c, { served := reads ++ writes, issue := some (cmd, req.2.addrVec) })

end Controller

end OnnxSim.Ram
