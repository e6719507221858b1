import OnnxSim.Ramulator.Dram

/-!
# HBM

The tables of `HBM.h` and `HBM.cpp`.
-/

namespace OnnxSim.Ram

/-! ## What a node asks for and what it changes -/

/-- The answers of `prereq` where no assertion fails. -/
abbrev Prereq := DRAM → Command → Int → Option (Option Command)

namespace HBM

/-- `prereq[Rank][RD]`. -/
def prereqRankRd : Prereq := fun node _ _ =>
  match node.node.state with
  | .PowerUp => some none
  | .ActPowerDown => some (some .PDX)
  | .PrePowerDown => some (some .PDX)
  | .SelfRefresh => some (some .SRX)
  | _ => none

/-- `prereq[Bank][RD]`. -/
def prereqBankRd : Prereq := fun node cmd id =>
  match node.node.state with
  | .Closed => some (some .ACT)
  | .Opened => if id ∈ node.node.rowState then some (some cmd) else some (some .PRE)
  | _ => none

/-- The banks of the bank groups below a rank. -/
def banks (node : DRAM) : List DRAM :=
  (List.range node.size).flatMap fun bg =>
    (List.range (node.child bg).size).map fun bank => (node.child bg).child bank

/-- `prereq[Rank][REF]`. -/
def prereqRankRef : Prereq := fun node _ _ =>
  if (banks node).all fun bank => bank.node.state = .Closed then some (some .REF)
  else some (some .PREA)

/-- `prereq[Bank][REFSB]`. -/
def prereqBankRefsb : Prereq := fun node _ _ =>
  if node.node.state = .Closed then some (some .REFSB) else some (some .PRE)

/-- `prereq[Rank][PDE]`. -/
def prereqRankPde : Prereq := fun node _ _ =>
  match node.node.state with
  | .PowerUp => some (some .PDE)
  | .ActPowerDown => some (some .PDE)
  | .PrePowerDown => some (some .PDE)
  | .SelfRefresh => some (some .SRX)
  | _ => none

/-- `prereq[Rank][SRE]`. -/
def prereqRankSre : Prereq := fun node _ _ =>
  match node.node.state with
  | .PowerUp => some (some .SRE)
  | .ActPowerDown => some (some .PDX)
  | .PrePowerDown => some (some .PDX)
  | .SelfRefresh => some (some .SRE)
  | _ => none

/-- `init_prereq`. -/
def prereq : Level → Command → Option Prereq
  | .Rank, .RD | .Rank, .WR | .Rank, .PIM_WR => some prereqRankRd
  | .Bank, .RD | .Bank, .WR => some prereqBankRd
  | .Rank, .REF => some prereqRankRef
  | .Bank, .REFSB => some prereqBankRefsb
  | .Rank, .PDE => some prereqRankPde
  | .Rank, .SRE => some prereqRankSre
  | _, _ => none

/-- `rowhit[Bank][RD]`. -/
def rowhitRd (node : DRAM) (id : Int) : Option Bool :=
  match node.node.state with
  | .Closed => some false
  | .Opened => some (decide (id ∈ node.node.rowState))
  | _ => none

/-- `init_rowhit`. -/
def rowhit : Level → Command → Option (DRAM → Int → Option Bool)
  | .Bank, .RD | .Bank, .WR => some rowhitRd
  | .Bank, .PIM_WR => some fun _ _ => some true
  | _, _ => none

/-- `rowopen[Bank][RD]`. -/
def rowopenRd (node : DRAM) (_ : Int) : Option Bool :=
  match node.node.state with
  | .Closed => some false
  | .Opened => some true
  | _ => none

/-- `init_rowopen`. -/
def rowopen : Level → Command → Option (DRAM → Int → Option Bool)
  | .Bank, .RD | .Bank, .WR => some rowopenRd
  | .Bank, .PIM_WR => some fun _ _ => some true
  | _, _ => none

/-- `node->state = state`. -/
def setState (state : State) (node : DRAM) : DRAM :=
  node.withNode { node.node with state := state }

/-- `lambda[Bank][ACT]`. -/
def open_ (node : DRAM) (id : Int) : DRAM :=
  node.withNode { node.node with state := .Opened, rowState := node.node.rowState.insert id }

/-- `lambda[Bank][PRE]`. -/
def close (node : DRAM) : DRAM :=
  node.withNode { node.node with state := .Closed, rowState := [] }

/-- The children of a node, each changed by `f`. -/
def mapChildren (f : DRAM → DRAM) : DRAM → DRAM
  | .leaf n => .leaf n
  | .branch n size children =>
    .branch n size fun i => if i < size then f (children i) else children i

/-- `lambda[Rank][PREA]`. -/
def closeAll (node : DRAM) : DRAM := mapChildren (mapChildren close) node

/-- `lambda[Rank][PDE]`. -/
def powerDown (node : DRAM) : DRAM :=
  if (banks node).all fun bank => bank.node.state = .Closed then setState .PrePowerDown node
  else setState .ActPowerDown node

/-- `init_lambda`. -/
def lambda : Level → Command → Option (DRAM → Int → DRAM)
  | .Bank, .ACT => some open_
  | .Bank, .PRE | .Bank, .RDA | .Bank, .WRA => some fun node _ => close node
  | .Rank, .PREA => some fun node _ => closeAll node
  | .Rank, .REF | .Bank, .RD | .Bank, .WR | .Bank, .PIM_WR => some fun node _ => node
  | .Rank, .PDE => some fun node _ => powerDown node
  | .Rank, .PDX | .Rank, .SRX => some fun node _ => setState .PowerUp node
  | .Rank, .SRE => some fun node _ => setState .SelfRefresh node
  | _, _ => none

/-! ## Organisation, speed and timing -/

inductive Org
  | HBM_1Gb | HBM_2Gb | HBM_4Gb
  deriving DecidableEq

structure OrgEntry where
  size : Nat
  dq : Nat
  count : Level → Nat

/-- The counts of a table of organisations, with those of channels and ranks from the configuration. -/
def counts (channels ranks bankGroups banks rows columns : Nat) : Level → Nat
  | .Channel => channels
  | .Rank => ranks
  | .BankGroup => bankGroups
  | .Bank => banks
  | .Row => rows
  | .Column => columns

/-- `org_table`, with the channels and ranks that `populate_memory` sets. -/
def orgTable (channels ranks : Nat) : Org → OrgEntry
  | .HBM_1Gb => ⟨1 * 2 ^ 10, 128, counts channels ranks 4 2 (2 ^ 20) (2 ^ 7)⟩
  | .HBM_2Gb => ⟨2 * 2 ^ 10, 128, counts channels ranks 4 2 (2 ^ 20) (2 ^ 7)⟩
  | .HBM_4Gb => ⟨4 * 2 ^ 10, 128, counts channels ranks 4 4 (2 ^ 20) (2 ^ 7)⟩

inductive Speed
  | HBM_1Gbps | HBM_2Gbps | HBM_2_5Gbps
  deriving DecidableEq

structure SpeedEntry where
  rate : Nat
  nBL : Nat
  nCCDS : Nat
  nCCDL : Nat
  nCL : Nat
  nRCDR : Nat
  nRCDW : Nat
  nRP : Nat
  nCWL : Nat
  nRAS : Nat
  nRC : Nat
  nRTP : Nat
  nWTRS : Nat
  nWTRL : Nat
  nWR : Nat
  nRRDS : Nat
  nRRDL : Nat
  nFAW : Nat
  nRFC : Nat
  nREFI : Nat
  nREFI1B : Nat
  nPD : Nat
  nXP : Nat
  nCKESR : Nat
  nXS : Nat

/-- `speed_table`. -/
def speedTable : Speed → SpeedEntry
  | .HBM_1Gbps =>
    ⟨1000, 1, 1, 2, 7, 7, 6, 7, 4, 17, 24, 7, 2, 4, 8, 4, 5, 20, 0, 1950, 0, 5, 5, 5, 0⟩
  | .HBM_2Gbps =>
    ⟨2000, 1, 1, 2, 14, 14, 12, 14, 8, 34, 48, 14, 4, 8, 16, 8, 10, 40, 0, 3900, 0, 10, 10, 10, 0⟩
  | .HBM_2_5Gbps =>
    ⟨2400, 1, 1, 2, 18, 18, 15, 18, 10, 43, 60, 18, 5, 10, 20, 10, 13, 50, 0, 4875, 0, 13, 13, 13, 0⟩

/-- `RFC_TABLE`. -/
def rfcTable : Speed → Org → Nat
  | .HBM_1Gbps, .HBM_1Gb => 55 | .HBM_1Gbps, .HBM_2Gb => 80 | .HBM_1Gbps, .HBM_4Gb => 130
  | .HBM_2Gbps, .HBM_1Gb => 110 | .HBM_2Gbps, .HBM_2Gb => 160 | .HBM_2Gbps, .HBM_4Gb => 260
  | .HBM_2_5Gbps, .HBM_1Gb => 137 | .HBM_2_5Gbps, .HBM_2Gb => 200 | .HBM_2_5Gbps, .HBM_4Gb => 325

/-- `REFI1B_TABLE`. -/
def refi1bTable : Speed → Org → Nat
  | .HBM_1Gbps, .HBM_1Gb => 64 | .HBM_1Gbps, .HBM_2Gb => 128 | .HBM_1Gbps, .HBM_4Gb => 256
  | .HBM_2Gbps, .HBM_1Gb => 128 | .HBM_2Gbps, .HBM_2Gb => 256 | .HBM_2Gbps, .HBM_4Gb => 512
  | .HBM_2_5Gbps, .HBM_1Gb => 160 | .HBM_2_5Gbps, .HBM_2Gb => 320 | .HBM_2_5Gbps, .HBM_4Gb => 640

/-- `XS_TABLE`. -/
def xsTable : Speed → Org → Nat
  | .HBM_1Gbps, .HBM_1Gb => 60 | .HBM_1Gbps, .HBM_2Gb => 85 | .HBM_1Gbps, .HBM_4Gb => 135
  | .HBM_2Gbps, .HBM_1Gb => 120 | .HBM_2Gbps, .HBM_2Gb => 170 | .HBM_2Gbps, .HBM_4Gb => 270
  | .HBM_2_5Gbps, .HBM_1Gb => 150 | .HBM_2_5Gbps, .HBM_2Gb => 213 | .HBM_2_5Gbps, .HBM_4Gb => 338

/-- `init_speed`: the rate and the size name the row and the column of the tables. -/
def initSpeed (speed : Speed) (org : Org) : SpeedEntry :=
  { speedTable speed with
    nRFC := rfcTable speed org
    nREFI1B := refi1bTable speed org
    nXS := xsTable speed org }

/-- `init_timing`, at the channel. -/
def timingChannel (s : SpeedEntry) : Command → List TimingEntry
  | .RD => [⟨.RD, 1, s.nBL, false⟩, ⟨.RDA, 1, s.nBL, false⟩]
  | .RDA => [⟨.RD, 1, s.nBL, false⟩, ⟨.RDA, 1, s.nBL, false⟩]
  | .WR => [⟨.WR, 1, s.nBL, false⟩, ⟨.WRA, 1, s.nBL, false⟩, ⟨.PIM_WR, 1, s.nBL, false⟩]
  | .WRA => [⟨.WR, 1, s.nBL, false⟩, ⟨.WRA, 1, s.nBL, false⟩]
  | .PIM_WR => [⟨.WR, 1, s.nBL, false⟩, ⟨.PIM_WR, 1, s.nBL, false⟩]
  | _ => []

/-- `init_timing`, at a rank. -/
def timingRank (s : SpeedEntry) : Command → List TimingEntry
  | .RD => [
      ⟨.RD, 1, s.nCCDS, false⟩, ⟨.RDA, 1, s.nCCDS, false⟩,
      ⟨.WR, 1, s.nCL + s.nCCDS + 2 - s.nCWL, false⟩,
      ⟨.WRA, 1, s.nCL + s.nCCDS + 2 - s.nCWL, false⟩,
      ⟨.PREA, 1, s.nRTP, false⟩,
      ⟨.PDE, 1, s.nCL + s.nBL + 1, false⟩]
  | .RDA => [
      ⟨.RD, 1, s.nCCDS, false⟩, ⟨.RDA, 1, s.nCCDS, false⟩,
      ⟨.WR, 1, s.nCL + s.nCCDS + 2 - s.nCWL, false⟩,
      ⟨.WRA, 1, s.nCL + s.nCCDS + 2 - s.nCWL, false⟩,
      ⟨.PDE, 1, s.nCL + s.nBL + 1, false⟩]
  | .WR => [
      ⟨.WR, 1, s.nCCDS, false⟩, ⟨.PIM_WR, 1, s.nCCDS, false⟩, ⟨.WRA, 1, s.nCCDS, false⟩,
      ⟨.RD, 1, s.nCWL + s.nBL + s.nWTRS, false⟩, ⟨.RDA, 1, s.nCWL + s.nBL + s.nWTRS, false⟩,
      ⟨.PREA, 1, s.nCWL + s.nBL + s.nWR, false⟩,
      ⟨.PDE, 1, s.nCWL + s.nBL + s.nWR, false⟩]
  | .PIM_WR => [
      ⟨.WR, 1, s.nCCDS, false⟩, ⟨.WR, 1, s.nCCDS, false⟩,
      ⟨.RD, 1, s.nCWL + s.nBL + s.nWTRS, false⟩, ⟨.RDA, 1, s.nCWL + s.nBL + s.nWTRS, false⟩]
  | .WRA => [
      ⟨.WR, 1, s.nCCDS, false⟩, ⟨.WRA, 1, s.nCCDS, false⟩,
      ⟨.RD, 1, s.nCWL + s.nBL + s.nWTRS, false⟩, ⟨.RDA, 1, s.nCWL + s.nBL + s.nWTRS, false⟩,
      ⟨.PDE, 1, s.nCWL + s.nBL + s.nWR + 1, false⟩]
  | .PDX => [
      ⟨.RD, 1, s.nXP, false⟩, ⟨.RDA, 1, s.nXP, false⟩,
      ⟨.WR, 1, s.nXP, false⟩, ⟨.WRA, 1, s.nXP, false⟩,
      ⟨.ACT, 1, s.nXP, false⟩, ⟨.PRE, 1, s.nXP, false⟩, ⟨.PREA, 1, s.nXP, false⟩,
      ⟨.REF, 1, s.nXP, false⟩, ⟨.PDE, 1, s.nXP, false⟩, ⟨.SRE, 1, s.nXP, false⟩]
  | .ACT => [
      ⟨.ACT, 1, s.nRRDS, false⟩, ⟨.ACT, 4, s.nFAW, false⟩, ⟨.PREA, 1, s.nRAS, false⟩,
      ⟨.PDE, 1, 1, false⟩]
  | .PREA => [⟨.ACT, 1, s.nRP, false⟩, ⟨.REF, 1, s.nRP, false⟩, ⟨.SRE, 1, s.nRP, false⟩]
  | .PRE => [⟨.REF, 1, s.nRP, false⟩, ⟨.SRE, 1, s.nRP, false⟩]
  | .REF => [⟨.ACT, 1, s.nRFC, false⟩, ⟨.REF, 1, s.nRFC, false⟩, ⟨.PDE, 1, 1, false⟩]
  | .SRX => [
      ⟨.ACT, 1, s.nXS, false⟩, ⟨.REF, 1, s.nXS, false⟩, ⟨.PDE, 1, s.nXS, false⟩,
      ⟨.SRE, 1, s.nXS, false⟩]
  | .PDE => [⟨.PDX, 1, s.nPD, false⟩]
  | .SRE => [⟨.SRX, 1, s.nCKESR, false⟩]
  | .REFSB => []

/-- `init_timing`, at a bank group. -/
def timingBankGroup (s : SpeedEntry) : Command → List TimingEntry
  | .RD => [⟨.RD, 1, s.nCCDL, false⟩, ⟨.RDA, 1, s.nCCDL, false⟩]
  | .RDA => [⟨.RD, 1, s.nCCDL, false⟩, ⟨.RDA, 1, s.nCCDL, false⟩]
  | .WR => [
      ⟨.WR, 1, s.nCCDL, false⟩, ⟨.WRA, 1, s.nCCDL, false⟩, ⟨.PIM_WR, 1, s.nCCDL, false⟩,
      ⟨.RD, 1, s.nCWL + s.nBL + s.nWTRL, false⟩, ⟨.RDA, 1, s.nCWL + s.nBL + s.nWTRL, false⟩]
  | .PIM_WR => [
      ⟨.WR, 1, s.nCCDL, false⟩, ⟨.WRA, 1, s.nCCDL, false⟩, ⟨.PIM_WR, 1, s.nCCDL, false⟩,
      ⟨.RD, 1, s.nCWL + s.nBL + s.nWTRL, false⟩, ⟨.RDA, 1, s.nCWL + s.nBL + s.nWTRL, false⟩]
  | .WRA => [
      ⟨.WR, 1, s.nCCDL, false⟩, ⟨.WRA, 1, s.nCCDL, false⟩,
      ⟨.WR, 1, s.nCCDL, false⟩, ⟨.WRA, 1, s.nCCDL, false⟩,
      ⟨.RD, 1, s.nCWL + s.nBL + s.nWTRL, false⟩, ⟨.RDA, 1, s.nCWL + s.nBL + s.nWTRL, false⟩]
  | .ACT => [⟨.ACT, 1, s.nRRDL, false⟩]
  | _ => []

/-- `init_timing`, at a bank. -/
def timingBank (s : SpeedEntry) : Command → List TimingEntry
  | .ACT => [
      ⟨.RD, 1, s.nRCDR, false⟩, ⟨.RDA, 1, s.nRCDR, false⟩,
      ⟨.WR, 1, s.nRCDW, false⟩, ⟨.WRA, 1, s.nRCDW, false⟩,
      ⟨.ACT, 1, s.nRC, false⟩, ⟨.PRE, 1, s.nRAS, false⟩]
  | .RD => [⟨.PRE, 1, s.nRTP, false⟩]
  | .WR => [⟨.PRE, 1, s.nCWL + s.nBL + s.nWR, false⟩]
  | .RDA => [⟨.ACT, 1, s.nRTP + s.nRP, false⟩]
  | .WRA => [⟨.ACT, 1, s.nCWL + s.nBL + s.nWR + s.nRP, false⟩]
  | .PRE => [⟨.ACT, 1, s.nRP, false⟩, ⟨.REFSB, 1, s.nRP, false⟩]
  | .REFSB => [⟨.REFSB, 1, s.nRFC, false⟩, ⟨.ACT, 1, s.nRFC, false⟩]
  | _ => []

def timing (s : SpeedEntry) : Level → Command → List TimingEntry
  | .Channel => timingChannel s
  | .Rank => timingRank s
  | .BankGroup => timingBankGroup s
  | .Bank => timingBank s
  | .Row | .Column => fun _ => []

/-! ## The standard -/

def start : Level → State
  | .Channel => .MAX
  | .Rank => .PowerUp
  | .BankGroup => .MAX
  | .Bank => .Closed
  | .Row => .Closed
  | .Column => .MAX

def scope : Command → Level
  | .ACT => .Row
  | .PRE => .Bank
  | .PREA => .Rank
  | .RD | .WR | .PIM_WR | .RDA | .WRA => .Column
  | .REF => .Rank
  | .REFSB => .Bank
  | .PDE | .PDX | .SRE | .SRX => .Rank

def isOpening : Command → Bool
  | .ACT => true
  | _ => false

def isAccessing : Command → Bool
  | .RD | .WR | .RDA | .WRA => true
  | _ => false

def isClosing : Command → Bool
  | .RDA | .WRA | .PRE | .PREA => true
  | _ => false

def isRefreshing : Command → Bool
  | .REF | .REFSB => true
  | _ => false

/-- The last entry has no initialiser. -/
def translate : RequestType → Command
  | .READ => .RD
  | .WRITE => .WR
  | .PIM_WRITE => .PIM_WR
  | .REFRESH => .REF
  | .POWERDOWN => .PDE
  | .SELFREFRESH => .SRE
  | .EXTENSION => .ACT

/-! ## The tables meet what the template asserts of them -/

/-- A change of state and open rows. -/
def Frame (n m : Node) : Prop := n.SameTimes m ∧ n.SameServing m

theorem Frame.refl (n : Node) : Frame n n := ⟨.refl n, .refl n⟩

theorem frame_withNode {n : Node} (d : DRAM) (h : Frame n d.node) : (d.withNode n).Lift Frame d := by
  cases d with
  | leaf m => exact .leaf h
  | branch m size children => exact .branch h fun i => .refl Frame.refl (children i)

theorem setState_frame (state : State) (d : DRAM) : (setState state d).Lift Frame d :=
  frame_withNode d ⟨⟨rfl, rfl, rfl, rfl⟩, ⟨rfl, rfl, rfl, rfl⟩⟩

theorem open_frame (d : DRAM) (id : Int) : (open_ d id).Lift Frame d :=
  frame_withNode d ⟨⟨rfl, rfl, rfl, rfl⟩, ⟨rfl, rfl, rfl, rfl⟩⟩

theorem close_frame (d : DRAM) : (close d).Lift Frame d :=
  frame_withNode d ⟨⟨rfl, rfl, rfl, rfl⟩, ⟨rfl, rfl, rfl, rfl⟩⟩

theorem mapChildren_frame {f : DRAM → DRAM} (hf : ∀ d, (f d).Lift Frame d) (d : DRAM) :
    (mapChildren f d).Lift Frame d := by
  cases d with
  | leaf n => exact .leaf (Frame.refl n)
  | branch n size children =>
    refine .branch (Frame.refl n) fun i => ?_
    split
    · exact hf (children i)
    · exact .refl Frame.refl (children i)

theorem powerDown_frame (d : DRAM) : (powerDown d).Lift Frame d := by
  unfold powerDown
  split
  · exact setState_frame ..
  · exact setState_frame ..

theorem lambda_frame {level : Level} {cmd : Command} {f : DRAM → Int → DRAM}
    (hf : lambda level cmd = some f) (d : DRAM) (i : Int) : (f d i).Lift Frame d := by
  unfold lambda at hf
  split at hf <;> cases hf
  · exact open_frame d i
  · exact close_frame d
  · exact close_frame d
  · exact close_frame d
  · exact mapChildren_frame (mapChildren_frame close_frame) d
  · exact .refl Frame.refl d
  · exact .refl Frame.refl d
  · exact .refl Frame.refl d
  · exact .refl Frame.refl d
  · exact powerDown_frame d
  · exact setState_frame .PowerUp d
  · exact setState_frame .PowerUp d
  · exact setState_frame .SelfRefresh d

/-- No entry is for siblings. -/
theorem timing_sibling (s : SpeedEntry) (level : Level) (cmd : Command) :
    ∀ t ∈ timing s level cmd, t.sibling = false := by
  cases level <;> cases cmd <;>
    simp [timing, timingChannel, timingRank, timingBankGroup, timingBank]

/-- The only entry that looks back further is the window of four activations. -/
theorem timing_dist (s : SpeedEntry) (level : Level) (cmd : Command) :
    ∀ t ∈ timing s level cmd, t.dist = 1 ∨ t.dist = 4 ∧ cmd = .ACT := by
  cases level <;> cases cmd <;>
    simp [timing, timingChannel, timingRank, timingBankGroup, timingBank]

/-- The standard, with the numbers of channels and ranks of the configuration. -/
def spec (org : Org) (speed : Speed) (channels ranks : Nat) : Spec where
  start := start
  scope := scope
  isOpening := isOpening
  isAccessing := isAccessing
  isClosing := isClosing
  isRefreshing := isRefreshing
  translate := translate
  prereq := prereq
  rowhit := rowhit
  rowopen := rowopen
  lambda := lambda
  timing := timing (initSpeed speed org)
  count := (orgTable channels ranks org).count
  prefetchSize := 2
  channelWidth := 128
  readLatency := (initSpeed speed org).nCL + (initSpeed speed org).nBL
  nREFI := (initSpeed speed org).nREFI
  lambda_frame := lambda_frame
  sibling_dist level cmd t ht hsib := by
    rw [timing_sibling _ level cmd t ht] at hsib
    cases hsib
  timing_dist level cmd t ht _ := by
    rcases timing_dist _ level cmd t ht with hone | ⟨hfour, rfl⟩
    · exact ⟨by omega, fun _ _ => hone⟩
    · exact ⟨by omega, fun href => by cases href⟩

end HBM

end OnnxSim.Ram
