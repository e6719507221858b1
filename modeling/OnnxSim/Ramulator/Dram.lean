import OnnxSim.Common
import Mathlib.Logic.Function.Basic

/-!
# The tree of a DRAM channel

`DRAM` of `DRAM.h`: a channel with its ranks, bank groups and banks. Each node keeps when each command
may be issued next, as far as the node is concerned, and when the last ones were issued; a standard, the
template's `T`, says by tables what a command needs (`prereq`), what it changes (`lambda`) and how long
other commands have to wait for it (`timing`). Rows are no nodes: a bank keeps which of them are open.

The two standards, `HBM` and `DDR4`, have the same levels, states and commands, but for two commands
that only `HBM` has. What `update_timing` asserts is a condition on the tables, which `Spec` carries.
-/

namespace OnnxSim.Ram

/-- `Level` of the standards. -/
inductive Level
  | Channel | Rank | BankGroup | Bank | Row | Column
  deriving DecidableEq

/-- `int(level)`. -/
def Level.toNat : Level → Nat
  | Channel => 0
  | Rank => 1
  | BankGroup => 2
  | Bank => 3
  | Row => 4
  | Column => 5

/-- `Level(int(level) + 1)`; there is nothing below the columns. -/
def Level.child : Level → Level
  | Channel => Rank
  | Rank => BankGroup
  | BankGroup => Bank
  | Bank => Row
  | Row | Column => Column

/-- `State` of the standards. -/
inductive State
  | Opened | Closed | PowerUp | ActPowerDown | PrePowerDown | SelfRefresh | MAX
  deriving DecidableEq

/-- `Command` of `HBM`. That of `DDR4` is without `PIM_WR` and `REFSB`. -/
inductive Command
  | ACT | PRE | PREA | RD | WR | PIM_WR | RDA | WRA | REF | REFSB | PDE | PDX | SRE | SRX
  deriving DecidableEq

/-- `Request::Type`. -/
inductive RequestType
  | READ | WRITE | PIM_WRITE | REFRESH | POWERDOWN | SELFREFRESH | EXTENSION
  deriving DecidableEq

/-- The number at each level, and -1 from the level on that is not meant. -/
abbrev AddrVec := List Int

/-- `addr[i]`. -/
def AddrVec.get (addr : AddrVec) (i : Nat) : Int := addr.getD i (-1)

/-- Two addresses that name the same node at each of the first `n` levels. -/
def AddrVec.Agree (n : Nat) (a b : AddrVec) : Prop := ∀ k < n, a.get k = b.get k

instance (n : Nat) (a b : AddrVec) : Decidable (a.Agree n b) :=
  inferInstanceAs (Decidable (∀ k < n, a.get k = b.get k))

structure TimingEntry where
  cmd : Command
  dist : Nat
  val : Int
  sibling : Bool := false

/-- The fields of a `DRAM` beside its children, without those that only statistics read. -/
structure Node where
  level : Level
  id : Nat
  state : State
  /-- The keys of `row_state`, whose values are all `Opened`. -/
  rowState : List Int := []
  next : Command → Int := fun _ => -1
  prev : Command → List Int
  curServingRequests : Int := 0
  beginOfServing : Int := -1

/-- Two nodes with the same times. -/
structure Node.SameTimes (n m : Node) : Prop where
  level : n.level = m.level
  id : n.id = m.id
  next : n.next = m.next
  prev : n.prev = m.prev

/-- Two nodes with the same state. -/
structure Node.SameRows (n m : Node) : Prop where
  level : n.level = m.level
  id : n.id = m.id
  state : n.state = m.state
  rowState : n.rowState = m.rowState

/-- Two nodes that serve the same requests. -/
structure Node.SameServing (n m : Node) : Prop where
  level : n.level = m.level
  id : n.id = m.id
  cur : n.curServingRequests = m.curServingRequests
  begin : n.beginOfServing = m.beginOfServing

/-- A node without children, or one with `size` children. Those from `size` on are never looked at. -/
inductive DRAM
  | leaf (node : Node)
  | branch (node : Node) (size : Nat) (children : Nat → DRAM)

namespace DRAM

def node : DRAM → Node
  | leaf node => node
  | branch node _ _ => node

def withNode (node : Node) : DRAM → DRAM
  | leaf _ => leaf node
  | branch _ size children => branch node size children

/-- `children.size()`. -/
def size : DRAM → Nat
  | leaf _ => 0
  | branch _ size _ => size

/-- `children[i]`. -/
def child (i : Nat) : DRAM → DRAM
  | leaf node => leaf node
  | branch _ _ children => children i

/-- Two trees of the same form whose nodes are related. -/
inductive Lift (R : Node → Node → Prop) : DRAM → DRAM → Prop
  | leaf {n m : Node} (node : R n m) : Lift R (leaf n) (leaf m)
  | branch {n m : Node} {size : Nat} {f g : Nat → DRAM} (node : R n m)
      (children : ∀ i, Lift R (f i) (g i)) : Lift R (branch n size f) (branch m size g)

end DRAM

/-- What the template takes of a standard: the tables of the class `T`. -/
structure Spec where
  start : Level → State
  scope : Command → Level
  isOpening : Command → Bool
  isAccessing : Command → Bool
  isClosing : Command → Bool
  isRefreshing : Command → Bool
  translate : RequestType → Command
  /-- `none` outside where the table has no function, and where the function asserts `false` inside;
  `Command::MAX` is `some none`. -/
  prereq : Level → Command → Option (DRAM → Command → Int → Option (Option Command))
  rowhit : Level → Command → Option (DRAM → Int → Option Bool)
  rowopen : Level → Command → Option (DRAM → Int → Option Bool)
  lambda : Level → Command → Option (DRAM → Int → DRAM)
  timing : Level → Command → List TimingEntry
  /-- `org_entry.count`. -/
  count : Level → Nat
  prefetchSize : Nat
  channelWidth : Nat
  readLatency : Nat
  nREFI : Nat
  /-- What a function of `lambda` assigns are states and open rows. -/
  lambda_frame : ∀ {level cmd f}, lambda level cmd = some f → ∀ d i,
    (f d i).Lift (fun n m => n.SameTimes m ∧ n.SameServing m) d
  /-- `assert (t.dist == 1)`. -/
  sibling_dist : ∀ level cmd, ∀ t ∈ timing level cmd, t.sibling = true → t.dist = 1
  /-- `prev[cmd][t.dist - 1]`, and `assert(past == clk)`. -/
  timing_dist : ∀ level cmd, ∀ t ∈ timing level cmd, t.sibling = false →
    0 < t.dist ∧ (isRefreshing cmd = true → isOpening t.cmd = true → t.dist = 1)

theorem Node.SameTimes.refl (n : Node) : n.SameTimes n := ⟨rfl, rfl, rfl, rfl⟩

theorem Node.SameTimes.trans {a b c : Node} (h : a.SameTimes b) (h' : b.SameTimes c) :
    a.SameTimes c :=
  ⟨h.level.trans h'.level, h.id.trans h'.id, h.next.trans h'.next, h.prev.trans h'.prev⟩

theorem Node.SameRows.refl (n : Node) : n.SameRows n := ⟨rfl, rfl, rfl, rfl⟩

theorem Node.SameServing.refl (n : Node) : n.SameServing n := ⟨rfl, rfl, rfl, rfl⟩

theorem Node.SameServing.trans {a b c : Node} (h : a.SameServing b) (h' : b.SameServing c) :
    a.SameServing c :=
  ⟨h.level.trans h'.level, h.id.trans h'.id, h.cur.trans h'.cur, h.begin.trans h'.begin⟩

/-- The numbers of an address that name a bank of the channel. -/
structure InChannel (spec : Spec) (id : Nat) (addr : AddrVec) : Prop where
  channel : addr.get 0 = id
  below : ∀ level : Level, 0 < level.toNat → level.toNat ≤ Level.Bank.toNat →
    0 ≤ addr.get level.toNat ∧ addr.get level.toNat < spec.count level

namespace Node

variable (spec : Spec) (cmd : Command) (clk : Nat) (n : Node)

/-- `max(next[c], future)`. -/
def raise (c : Command) (future : Int) : Node :=
  { n with next := Function.update n.next c (max (n.next c) future) }

/-- `update_timing` at a sibling of a target node. -/
def sibling : Node :=
  (spec.timing n.level cmd).foldl
    (fun n t => if t.sibling then n.raise t.cmd (clk + t.val) else n) n

/-- `update_timing` at a target node: the history. -/
def record : Node :=
  if (n.prev cmd).length = 0 then n
  else { n with prev := Function.update n.prev cmd ((clk : Int) :: (n.prev cmd).dropLast) }

/-- `update_timing` at a target node. -/
def target : Node :=
  (spec.timing n.level cmd).foldl
    (fun n t =>
      if t.sibling then n
      else
        let past := (n.prev cmd).getD (t.dist - 1) (-1)
        if past < 0 then n else n.raise t.cmd (past + t.val)) (n.record cmd clk)

/-- The test of `check` at one node. -/
def ready : Bool := !(n.next cmd != -1 && decide ((clk : Int) < n.next cmd))

/-- `update_serving_requests` at one node; `none` where an assertion fails. -/
def updateServingRequests (addr : AddrVec) (delta : Int) (clk : Nat) (n : Node) : Option Node :=
  if (n.id : Int) = addr.get n.level.toNat ∧ 0 ≤ n.curServingRequests + delta then
    let n := { n with curServingRequests := n.curServingRequests + delta }
    if delta = 1 ∧ n.curServingRequests = 1 then some { n with beginOfServing := clk }
    else if n.curServingRequests = 0 then
      if n.beginOfServing ≠ -1 ∧ delta = -1 then some n else none
    else some n
  else none

end Node

namespace DRAM

namespace Lift

variable {R S T : Node → Node → Prop} {d d' d'' : DRAM}

theorem refl (hR : ∀ n, R n n) : ∀ d : DRAM, d.Lift R d
  | .leaf n => .leaf (hR n)
  | .branch n _ children => .branch (hR n) fun i => refl hR (children i)

theorem mono (h : d.Lift R d') (hRS : ∀ n m, R n m → S n m) : d.Lift S d' := by
  induction h with
  | leaf node => exact .leaf (hRS _ _ node)
  | branch node _ ih => exact .branch (hRS _ _ node) ih

theorem trans (h : d.Lift R d') (h' : d'.Lift S d'') (hT : ∀ a b c, R a b → S b c → T a c) :
    d.Lift T d'' := by
  induction h generalizing d'' with
  | leaf node =>
    cases h' with
    | leaf node' => exact .leaf (hT _ _ _ node node')
  | branch node _ ih =>
    cases h' with
    | branch node' children' => exact .branch (hT _ _ _ node node') fun i => ih i (children' i)

theorem node (h : d.Lift R d') : R d.node d'.node := by
  cases h with
  | leaf node => exact node
  | branch node _ => exact node

theorem size (h : d.Lift R d') : d.size = d'.size := by
  cases h with
  | leaf _ => rfl
  | branch _ _ => rfl

theorem child (h : d.Lift R d') (i : Nat) : (d.child i).Lift R (d'.child i) := by
  cases h with
  | leaf node => exact .leaf node
  | branch _ children => exact children i

end Lift

variable (spec : Spec)

/-- The node that the constructor makes. -/
def newNode (level : Level) (id : Nat) : Node where
  level := level
  id := id
  state := spec.start level
  prev := fun cmd => List.replicate (((spec.timing level cmd).map (·.dist)).foldl max 0) (-1)

/-- The constructor. The recursion is over the levels from `level` on. -/
def new : (levels : Nat) → Level → (id : Nat) → DRAM
  | 0, level, id => leaf (newNode spec level id)
  | levels + 1, level, id =>
    if level.child = .Row ∨ spec.count level.child = 0 then leaf (newNode spec level id)
    else branch (newNode spec level id) (spec.count level.child) fun i => new levels level.child i

variable (cmd : Command) (addr : AddrVec)

/-- `addr[int(level) + 1]`. -/
def childId (d : DRAM) : Int := addr.get (d.node.level.toNat + 1)

/-- What a node by itself asks for before a command. -/
def prerequisite (d : DRAM) : Option (Option Command) :=
  match spec.prereq d.node.level cmd with
  | none => some none
  | some f => f d cmd (d.childId addr)

def decode : DRAM → Option Command
  | leaf n => do
    match ← prerequisite spec cmd addr (leaf n) with
    | some prereqCmd => some prereqCmd
    | none => some cmd
  | branch n size children => do
    match ← prerequisite spec cmd addr (branch n size children) with
    | some prereqCmd => some prereqCmd
    | none =>
      let childId := addr.get (n.level.toNat + 1)
      if childId < 0 then some cmd else decode (children childId.toNat)

def check (clk : Nat) : DRAM → Bool
  | leaf n => n.ready cmd clk
  | branch n _ children =>
    if n.ready cmd clk then
      let childId := addr.get (n.level.toNat + 1)
      if childId < 0 ∨ n.level = spec.scope cmd then true else check clk (children childId.toNat)
    else false

def checkRowHit : DRAM → Option Bool
  | leaf n =>
    match spec.rowhit n.level cmd with
    | some f => f (leaf n) (addr.get (n.level.toNat + 1))
    | none => some false
  | branch n size children =>
    let childId := addr.get (n.level.toNat + 1)
    match spec.rowhit n.level cmd with
    | some f => f (branch n size children) childId
    | none => if childId < 0 then some false else checkRowHit (children childId.toNat)

def checkRowOpen : DRAM → Option Bool
  | leaf n =>
    match spec.rowopen n.level cmd with
    | some f => f (leaf n) (addr.get (n.level.toNat + 1))
    | none => some false
  | branch n size children =>
    let childId := addr.get (n.level.toNat + 1)
    match spec.rowopen n.level cmd with
    | some f => f (branch n size children) childId
    | none => if childId < 0 then some false else checkRowOpen (children childId.toNat)

/-- `lambda[int(cmd)]` at this level. -/
def transition (d : DRAM) : DRAM :=
  match spec.lambda d.node.level cmd with
  | some f => f d (d.childId addr)
  | none => d

/-- The recursion is over the levels from this node on. -/
def updateState : (levels : Nat) → DRAM → DRAM
  | 0, d => d.transition spec cmd addr
  | levels + 1, d =>
    match d.transition spec cmd addr with
    | leaf n => leaf n
    | branch n size children =>
      if n.level = spec.scope cmd then branch n size children
      else
        let childId := (addr.get (n.level.toNat + 1)).toNat
        branch n size (Function.update children childId (updateState levels (children childId)))

def updateTiming (clk : Nat) : DRAM → DRAM
  | leaf n =>
    if (n.id : Int) ≠ addr.get n.level.toNat then leaf (n.sibling spec cmd clk)
    else leaf (n.target spec cmd clk)
  | branch n size children =>
    if (n.id : Int) ≠ addr.get n.level.toNat then branch (n.sibling spec cmd clk) size children
    else branch (n.target spec cmd clk) size fun i => updateTiming clk (children i)

/-- `int(Level::MAX)`. -/
def levels : Nat := 6

def update (clk : Nat) (d : DRAM) : DRAM :=
  (d.updateState spec cmd addr levels).updateTiming spec cmd addr clk

/-- `none` where an assertion fails. -/
def updateServingRequests (delta : Int) (clk : Nat) : DRAM → Option DRAM
  | leaf n => (n.updateServingRequests addr delta clk).map leaf
  | branch n size children => do
    let n ← n.updateServingRequests addr delta clk
    let childId := addr.get (n.level.toNat + 1)
    if childId < 0 ∨ Level.Bank.toNat < n.level.toNat then some (branch n size children)
    else do
      let c ← updateServingRequests delta clk (children childId.toNat)
      some (branch n size (Function.update children childId.toNat c))

end DRAM

end OnnxSim.Ram
