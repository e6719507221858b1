import OnnxSim.Ramulator.Hbm

/-!
# DDR4

The tables of `DDR4.h` and `DDR4.cpp`. The functions of `init_prereq`, `init_rowhit`, `init_rowopen` and
`init_lambda` are copies of those of `HBM`, which has two commands more: what the two standards have in
common is `Standard`. `translate` is older than the request type `PIM_WRITE`: from that type on the
commands are those of the next type, and a refresh becomes a power down.
-/

namespace OnnxSim.Ram

namespace DDR4

/-! ## What a node asks for and what it changes -/

/-- `init_prereq`. -/
def prereq : Level → Command → Option Prereq
  | .Rank, .RD | .Rank, .WR => some HBM.prereqRankRd
  | .Bank, .RD | .Bank, .WR => some HBM.prereqBankRd
  | .Rank, .REF => some HBM.prereqRankRef
  | .Rank, .PDE => some HBM.prereqRankPde
  | .Rank, .SRE => some HBM.prereqRankSre
  | _, _ => none

/-- `init_rowhit`. -/
def rowhit : Level → Command → Option (DRAM → Int → Option Bool)
  | .Bank, .RD | .Bank, .WR => some HBM.rowhitRd
  | _, _ => none

/-- `init_rowopen`. -/
def rowopen : Level → Command → Option (DRAM → Int → Option Bool)
  | .Bank, .RD | .Bank, .WR => some HBM.rowopenRd
  | _, _ => none

/-- `init_lambda`. -/
def lambda : Level → Command → Option (DRAM → Int → DRAM)
  | _, .PIM_WR | _, .REFSB => none
  | level, cmd => HBM.lambda level cmd

/-! ## Organisation, speed and timing -/

inductive Org
  | DDR4_2Gb_x4 | DDR4_2Gb_x8 | DDR4_2Gb_x16
  | DDR4_4Gb_x4 | DDR4_4Gb_x8 | DDR4_4Gb_x16
  | DDR4_8Gb_x4 | DDR4_8Gb_x8 | DDR4_8Gb_x16
  deriving DecidableEq

/-- `org_table`, with the channels and ranks that `populate_memory` sets. -/
def orgTable (channels ranks : Nat) : Org → HBM.OrgEntry
  | .DDR4_2Gb_x4 => ⟨2 * 2 ^ 10, 4, HBM.counts channels ranks 4 4 (2 ^ 15) (2 ^ 10)⟩
  | .DDR4_2Gb_x8 => ⟨2 * 2 ^ 10, 8, HBM.counts channels ranks 4 4 (2 ^ 14) (2 ^ 10)⟩
  | .DDR4_2Gb_x16 => ⟨2 * 2 ^ 10, 16, HBM.counts channels ranks 2 4 (2 ^ 14) (2 ^ 10)⟩
  | .DDR4_4Gb_x4 => ⟨4 * 2 ^ 10, 4, HBM.counts channels ranks 4 4 (2 ^ 16) (2 ^ 10)⟩
  | .DDR4_4Gb_x8 => ⟨4 * 2 ^ 10, 8, HBM.counts channels ranks 4 4 (2 ^ 15) (2 ^ 10)⟩
  | .DDR4_4Gb_x16 => ⟨4 * 2 ^ 10, 16, HBM.counts channels ranks 2 4 (2 ^ 15) (2 ^ 10)⟩
  | .DDR4_8Gb_x4 => ⟨8 * 2 ^ 10, 4, HBM.counts channels ranks 4 4 (2 ^ 17) (2 ^ 10)⟩
  | .DDR4_8Gb_x8 => ⟨8 * 2 ^ 10, 8, HBM.counts channels ranks 4 4 (2 ^ 16) (2 ^ 10)⟩
  | .DDR4_8Gb_x16 => ⟨8 * 2 ^ 10, 16, HBM.counts channels ranks 2 4 (2 ^ 16) (2 ^ 10)⟩

inductive Speed
  | DDR4_1600K | DDR4_1600L | DDR4_1866M | DDR4_1866N | DDR4_2133P | DDR4_2133R | DDR4_2400R
  | DDR4_2400U | DDR4_3200
  deriving DecidableEq

structure SpeedEntry where
  rate : Nat
  nBL : Nat
  nCCDS : Nat
  nCCDL : Nat
  nRTRS : Nat
  nCL : Nat
  nRCD : Nat
  nRP : Nat
  nCWL : Nat
  nRAS : Nat
  nRC : Nat
  nRTP : Nat
  nWTRS : Nat
  nWTRL : Nat
  nWR : Nat
  nRRDS : Nat
  nRRDL : Nat
  nFAW : Nat
  nRFC : Nat
  nREFI : Nat
  nPD : Nat
  nXP : Nat
  nXPDLL : Nat
  nCKESR : Nat
  nXS : Nat
  nXSDLL : Nat

/-- `speed_table`. -/
def speedTable : Speed → SpeedEntry
  | .DDR4_1600K =>
    ⟨1600, 4, 4, 5, 2, 11, 11, 11, 9, 28, 39, 6, 2, 6, 12, 0, 0, 0, 0, 0, 4, 5, 0, 5, 0, 0⟩
  | .DDR4_1600L =>
    ⟨1600, 4, 4, 5, 2, 12, 12, 12, 9, 28, 40, 6, 2, 6, 12, 0, 0, 0, 0, 0, 4, 5, 0, 5, 0, 0⟩
  | .DDR4_1866M =>
    ⟨1866, 4, 4, 5, 2, 13, 13, 13, 10, 32, 45, 7, 3, 7, 14, 0, 0, 0, 0, 0, 5, 6, 0, 6, 0, 0⟩
  | .DDR4_1866N =>
    ⟨1866, 4, 4, 5, 2, 14, 14, 14, 10, 32, 46, 7, 3, 7, 14, 0, 0, 0, 0, 0, 5, 6, 0, 6, 0, 0⟩
  | .DDR4_2133P =>
    ⟨2133, 4, 4, 6, 2, 15, 15, 15, 11, 36, 51, 8, 3, 8, 16, 0, 0, 0, 0, 0, 6, 7, 0, 7, 0, 0⟩
  | .DDR4_2133R =>
    ⟨2133, 4, 4, 6, 2, 16, 16, 16, 11, 36, 52, 8, 3, 8, 16, 0, 0, 0, 0, 0, 6, 7, 0, 7, 0, 0⟩
  | .DDR4_2400R =>
    ⟨2400, 4, 4, 6, 2, 16, 16, 16, 12, 39, 55, 9, 3, 9, 18, 0, 0, 0, 0, 0, 6, 8, 0, 7, 0, 0⟩
  | .DDR4_2400U =>
    ⟨2400, 4, 4, 6, 2, 18, 18, 18, 12, 39, 57, 9, 3, 9, 18, 0, 0, 0, 0, 0, 6, 8, 0, 7, 0, 0⟩
  | .DDR4_3200 =>
    ⟨3200, 4, 4, 10, 2, 22, 22, 22, 16, 56, 78, 12, 4, 12, 24, 8, 10, 40, 0, 0, 8, 10, 0, 8, 0, 0⟩

/-- The column of the tables for a rate. -/
def speedColumn : Speed → Nat
  | .DDR4_1600K | .DDR4_1600L => 0
  | .DDR4_1866M | .DDR4_1866N => 1
  | .DDR4_2133P | .DDR4_2133R => 2
  | .DDR4_2400R | .DDR4_2400U => 3
  | .DDR4_3200 => 4

/-- The row of the tables for a size. -/
def density : Org → Nat
  | .DDR4_2Gb_x4 | .DDR4_2Gb_x8 | .DDR4_2Gb_x16 => 0
  | .DDR4_4Gb_x4 | .DDR4_4Gb_x8 | .DDR4_4Gb_x16 => 1
  | .DDR4_8Gb_x4 | .DDR4_8Gb_x8 | .DDR4_8Gb_x16 => 2

/-- `table[i][j]`. -/
def lookup (table : List (List Nat)) (i j : Nat) : Nat := (table.getD i []).getD j 0

def RRDS_TABLE : List (List Nat) := [[4, 4, 4, 4, 4], [5, 5, 6, 7, 9]]

def RRDL_TABLE : List (List Nat) := [[5, 5, 6, 6, 8], [6, 6, 7, 8, 11]]

def FAW_TABLE : List (List Nat) := [[16, 16, 16, 16, 16], [20, 22, 23, 26, 34], [28, 28, 32, 36, 48]]

/-- `RFC_TABLE[Refresh_1X]`: nothing sets another `refresh_mode`. -/
def RFC_TABLE : List (List Nat) :=
  [[128, 150, 171, 192, 256], [208, 243, 278, 312, 416], [280, 327, 374, 420, 560]]

def REFI_TABLE : List Nat := [6240, 7280, 8320, 9360, 12480]

def XS_TABLE : List (List Nat) :=
  [[136, 159, 182, 204, 272], [216, 252, 288, 324, 432], [288, 336, 384, 432, 576]]

/-- `init_speed`. -/
def initSpeed (speed : Speed) (org : Org) : SpeedEntry :=
  let dq := (orgTable 0 0 org).dq
  { speedTable speed with
    nRRDS := lookup RRDS_TABLE (if dq = 16 then 1 else 0) (speedColumn speed)
    nRRDL := lookup RRDL_TABLE (if dq = 16 then 1 else 0) (speedColumn speed)
    nFAW := lookup FAW_TABLE (if dq = 4 then 0 else if dq = 8 then 1 else 2) (speedColumn speed)
    nRFC := lookup RFC_TABLE (density org) (speedColumn speed)
    nREFI := REFI_TABLE.getD (speedColumn speed) 0
    nXS := lookup XS_TABLE (density org) (speedColumn speed) }

/-- `init_timing`, at the channel. -/
def timingChannel (s : SpeedEntry) : Command → List TimingEntry
  | .RD | .RDA => [⟨.RD, 1, s.nBL, false⟩, ⟨.RDA, 1, s.nBL, false⟩]
  | .WR | .WRA => [⟨.WR, 1, s.nBL, false⟩, ⟨.WRA, 1, s.nBL, false⟩]
  | _ => []

/-- The entries of a read for the other ranks. -/
def siblingRead (s : SpeedEntry) : List TimingEntry := [
  ⟨.RD, 1, s.nBL + s.nRTRS, true⟩, ⟨.RDA, 1, s.nBL + s.nRTRS, true⟩,
  ⟨.WR, 1, s.nBL + s.nRTRS, true⟩, ⟨.WRA, 1, s.nBL + s.nRTRS, true⟩,
  ⟨.WR, 1, s.nCL + s.nBL + s.nRTRS - s.nCWL, true⟩,
  ⟨.WRA, 1, s.nCL + s.nBL + s.nRTRS - s.nCWL, true⟩]

/-- The entries of a write for the other ranks. -/
def siblingWrite (s : SpeedEntry) : List TimingEntry := [
  ⟨.RD, 1, s.nCWL + s.nBL + s.nRTRS - s.nCL, true⟩,
  ⟨.RDA, 1, s.nCWL + s.nBL + s.nRTRS - s.nCL, true⟩]

/-- `init_timing`, at a rank. -/
def timingRank (s : SpeedEntry) : Command → List TimingEntry
  | .RD => [
      ⟨.RD, 1, s.nCCDS, false⟩, ⟨.RDA, 1, s.nCCDS, false⟩,
      ⟨.WR, 1, s.nCL + s.nBL + 2 - s.nCWL, false⟩,
      ⟨.WRA, 1, s.nCL + s.nBL + 2 - s.nCWL, false⟩] ++ siblingRead s ++ [
      ⟨.PREA, 1, s.nRTP, false⟩, ⟨.PDE, 1, s.nCL + s.nBL + 1, false⟩]
  | .RDA => [
      ⟨.RD, 1, s.nCCDS, false⟩, ⟨.RDA, 1, s.nCCDS, false⟩,
      ⟨.WR, 1, s.nCL + s.nBL + 2 - s.nCWL, false⟩,
      ⟨.WRA, 1, s.nCL + s.nBL + 2 - s.nCWL, false⟩] ++ siblingRead s ++ [
      ⟨.PDE, 1, s.nCL + s.nBL + 1, false⟩, ⟨.REF, 1, s.nRTP + s.nRP, false⟩]
  | .WR => [
      ⟨.WR, 1, s.nCCDS, false⟩, ⟨.WRA, 1, s.nCCDS, false⟩,
      ⟨.RD, 1, s.nCWL + s.nBL + s.nWTRS, false⟩,
      ⟨.RDA, 1, s.nCWL + s.nBL + s.nWTRS, false⟩] ++ siblingWrite s ++ [
      ⟨.PREA, 1, s.nCWL + s.nBL + s.nWR, false⟩, ⟨.PDE, 1, s.nCWL + s.nBL + s.nWR, false⟩]
  | .WRA => [
      ⟨.WR, 1, s.nCCDS, false⟩, ⟨.WRA, 1, s.nCCDS, false⟩,
      ⟨.RD, 1, s.nCWL + s.nBL + s.nWTRS, false⟩,
      ⟨.RDA, 1, s.nCWL + s.nBL + s.nWTRS, false⟩] ++ siblingWrite s ++ [
      ⟨.PDE, 1, s.nCWL + s.nBL + s.nWR + 1, false⟩,
      ⟨.REF, 1, s.nCWL + s.nBL + s.nWR + s.nRP, false⟩]
  | .PDX => [
      ⟨.RD, 1, s.nXP, false⟩, ⟨.RDA, 1, s.nXP, false⟩,
      ⟨.WR, 1, s.nXP, false⟩, ⟨.WRA, 1, s.nXP, false⟩,
      ⟨.ACT, 1, s.nXP, false⟩, ⟨.PRE, 1, s.nXP, false⟩, ⟨.PREA, 1, s.nXP, false⟩,
      ⟨.REF, 1, s.nXP, false⟩, ⟨.PDE, 1, s.nXP, false⟩, ⟨.SRE, 1, s.nXP, false⟩]
  | .ACT => [
      ⟨.ACT, 1, s.nRRDS, false⟩, ⟨.ACT, 4, s.nFAW, false⟩, ⟨.PREA, 1, s.nRAS, false⟩,
      ⟨.REF, 1, s.nRC, false⟩, ⟨.PDE, 1, 1, false⟩]
  | .PREA => [⟨.ACT, 1, s.nRP, false⟩, ⟨.REF, 1, s.nRP, false⟩, ⟨.SRE, 1, s.nRP, false⟩]
  | .PRE => [⟨.REF, 1, s.nRP, false⟩, ⟨.SRE, 1, s.nRP, false⟩]
  | .REF => [⟨.ACT, 1, s.nRFC, false⟩, ⟨.REF, 1, s.nRFC, false⟩, ⟨.PDE, 1, 1, false⟩]
  | .SRX => [
      ⟨.ACT, 1, s.nXS, false⟩, ⟨.REF, 1, s.nXS, false⟩, ⟨.PDE, 1, s.nXS, false⟩,
      ⟨.SRE, 1, s.nXS, false⟩]
  | .PDE => [⟨.PDX, 1, s.nPD, false⟩]
  | .SRE => [⟨.SRX, 1, s.nCKESR, false⟩]
  | .PIM_WR | .REFSB => []

/-- `init_timing`, at a bank group. -/
def timingBankGroup (s : SpeedEntry) : Command → List TimingEntry
  | .RD | .RDA => [⟨.RD, 1, s.nCCDL, false⟩, ⟨.RDA, 1, s.nCCDL, false⟩]
  | .WR => [
      ⟨.WR, 1, s.nCCDL, false⟩, ⟨.WRA, 1, s.nCCDL, false⟩,
      ⟨.RD, 1, s.nCWL + s.nBL + s.nWTRL, false⟩, ⟨.RDA, 1, s.nCWL + s.nBL + s.nWTRL, false⟩]
  | .WRA => [
      ⟨.WR, 1, s.nCCDL, false⟩, ⟨.WRA, 1, s.nCCDL, false⟩,
      ⟨.RD, 1, s.nCWL + s.nBL + s.nWTRL, false⟩, ⟨.RDA, 1, s.nCWL + s.nBL + s.nWTRL, false⟩]
  | .ACT => [⟨.ACT, 1, s.nRRDL, false⟩]
  | _ => []

/-- `init_timing`, at a bank. -/
def timingBank (s : SpeedEntry) : Command → List TimingEntry
  | .ACT => [
      ⟨.RD, 1, s.nRCD, false⟩, ⟨.RDA, 1, s.nRCD, false⟩,
      ⟨.WR, 1, s.nRCD, false⟩, ⟨.WRA, 1, s.nRCD, false⟩,
      ⟨.ACT, 1, s.nRC, false⟩, ⟨.PRE, 1, s.nRAS, false⟩]
  | .RD => [⟨.PRE, 1, s.nRTP, false⟩]
  | .WR => [⟨.PRE, 1, s.nCWL + s.nBL + s.nWR, false⟩]
  | .RDA => [⟨.ACT, 1, s.nRTP + s.nRP, false⟩]
  | .WRA => [⟨.ACT, 1, s.nCWL + s.nBL + s.nWR + s.nRP, false⟩]
  | .PRE => [⟨.ACT, 1, s.nRP, false⟩]
  | _ => []

def timing (s : SpeedEntry) : Level → Command → List TimingEntry
  | .Channel => timingChannel s
  | .Rank => timingRank s
  | .BankGroup => timingBankGroup s
  | .Bank => timingBank s
  | .Row | .Column => fun _ => []

/-! ## The standard -/

def isRefreshing : Command → Bool
  | .REF => true
  | _ => false

/-- Five initialisers for seven entries. -/
def translate : RequestType → Command
  | .READ => .RD
  | .WRITE => .WR
  | .PIM_WRITE => .REF
  | .REFRESH => .PDE
  | .POWERDOWN => .SRE
  | .SELFREFRESH => .ACT
  | .EXTENSION => .ACT

theorem lambda_frame {level : Level} {cmd : Command} {f : DRAM → Int → DRAM}
    (hf : lambda level cmd = some f) (d : DRAM) (i : Int) : (f d i).Lift HBM.Frame d := by
  unfold lambda at hf
  split at hf
  · cases hf
  · cases hf
  · exact HBM.lambda_frame hf d i

/-- The entries that look back further are the windows of four activations. -/
theorem timing_dist (s : SpeedEntry) (level : Level) (cmd : Command) :
    ∀ t ∈ timing s level cmd, t.dist = 1 ∨ t.dist = 4 ∧ cmd = .ACT ∧ t.sibling = false := by
  cases level <;> cases cmd <;>
    simp [timing, timingChannel, timingRank, timingBankGroup, timingBank, siblingRead, siblingWrite]

theorem sibling_dist (s : SpeedEntry) (level : Level) (cmd : Command) :
    ∀ t ∈ timing s level cmd, t.sibling = true → t.dist = 1 := by
  intro t ht hsib
  rcases timing_dist s level cmd t ht with hone | ⟨-, -, hnot⟩
  · exact hone
  · rw [hnot] at hsib
    cases hsib

theorem timing_past (s : SpeedEntry) (level : Level) (cmd : Command) :
    ∀ t ∈ timing s level cmd, t.sibling = false →
      0 < t.dist ∧ (isRefreshing cmd = true → HBM.isOpening t.cmd = true → t.dist = 1) := by
  intro t ht _
  rcases timing_dist s level cmd t ht with hone | ⟨hfour, rfl, -⟩
  · exact ⟨by omega, fun _ _ => hone⟩
  · exact ⟨by omega, fun href => by cases href⟩

/-- The standard, with the numbers of channels and ranks of the configuration. -/
def spec (org : Org) (speed : Speed) (channels ranks : Nat) : Spec where
  start := HBM.start
  scope := HBM.scope
  isOpening := HBM.isOpening
  isAccessing := HBM.isAccessing
  isClosing := HBM.isClosing
  isRefreshing := isRefreshing
  translate := translate
  prereq := prereq
  rowhit := rowhit
  rowopen := rowopen
  lambda := lambda
  timing := timing (initSpeed speed org)
  count := (orgTable channels ranks org).count
  prefetchSize := 8
  channelWidth := 16
  readLatency := (initSpeed speed org).nCL + (initSpeed speed org).nBL
  nREFI := (initSpeed speed org).nREFI
  lambda_frame := lambda_frame
  sibling_dist := sibling_dist _
  timing_dist := timing_past _

end DDR4

/-! ## What the two have in common -/

/-- A standard that treats the commands of `DDR4` as both do. -/
structure Standard (spec : Spec) : Prop where
  start : spec.start = HBM.start
  scope : spec.scope = HBM.scope
  isOpening : spec.isOpening = HBM.isOpening
  isAccessing : spec.isAccessing = HBM.isAccessing
  isClosing : spec.isClosing = HBM.isClosing
  prereq : ∀ level cmd, cmd ≠ .PIM_WR → cmd ≠ .REFSB → spec.prereq level cmd = HBM.prereq level cmd
  rowhit : ∀ level cmd, cmd ≠ .PIM_WR → spec.rowhit level cmd = HBM.rowhit level cmd
  rowopen : ∀ level cmd, cmd ≠ .PIM_WR → spec.rowopen level cmd = HBM.rowopen level cmd
  lambda : ∀ level cmd, cmd ≠ .PIM_WR → spec.lambda level cmd = HBM.lambda level cmd
  read : spec.translate .READ = .RD
  write : spec.translate .WRITE = .WR
  refresh : spec.translate .REFRESH = .REF ∨ spec.translate .REFRESH = .PDE
  count : ∀ level : Level, level.toNat ≤ Level.Bank.toNat → spec.count level ≠ 0
  readLatency : 1 < spec.readLatency

theorem HBM.readLatency (speed : HBM.Speed) (org : HBM.Org) :
    1 < (HBM.initSpeed speed org).nCL + (HBM.initSpeed speed org).nBL := by
  cases speed <;> cases org <;> decide

theorem DDR4.readLatency (speed : DDR4.Speed) (org : DDR4.Org) :
    1 < (DDR4.initSpeed speed org).nCL + (DDR4.initSpeed speed org).nBL := by
  cases speed <;> cases org <;> decide

theorem HBM.standard (org : Org) (speed : Speed) {channels ranks : Nat} (hchannels : channels ≠ 0)
    (hranks : ranks ≠ 0) : Standard (HBM.spec org speed channels ranks) where
  start := rfl
  scope := rfl
  isOpening := rfl
  isAccessing := rfl
  isClosing := rfl
  prereq _ _ _ _ := rfl
  rowhit _ _ _ := rfl
  rowopen _ _ _ := rfl
  lambda _ _ _ := rfl
  read := rfl
  write := rfl
  refresh := .inl rfl
  count level hle := by
    cases level with
    | Channel => cases org <;> exact hchannels
    | Rank => cases org <;> exact hranks
    | BankGroup => cases org <;> exact Nat.succ_ne_zero _
    | Bank => cases org <;> exact Nat.succ_ne_zero _
    | Row => exact absurd hle (by decide)
    | Column => exact absurd hle (by decide)
  readLatency := HBM.readLatency speed org

theorem DDR4.standard (org : Org) (speed : Speed) {channels ranks : Nat} (hchannels : channels ≠ 0)
    (hranks : ranks ≠ 0) : Standard (DDR4.spec org speed channels ranks) where
  start := rfl
  scope := rfl
  isOpening := rfl
  isAccessing := rfl
  isClosing := rfl
  prereq level cmd hpim hrefsb := by
    cases level <;> cases cmd <;> first | rfl | exact absurd rfl hpim | exact absurd rfl hrefsb
  rowhit level cmd hpim := by
    cases level <;> cases cmd <;> first | rfl | exact absurd rfl hpim
  rowopen level cmd hpim := by
    cases level <;> cases cmd <;> first | rfl | exact absurd rfl hpim
  lambda level cmd hpim := by
    cases level <;> cases cmd <;> first | rfl | exact absurd rfl hpim
  read := rfl
  write := rfl
  refresh := .inr rfl
  count level hle := by
    cases level with
    | Channel => cases org <;> exact hchannels
    | Rank => cases org <;> exact hranks
    | BankGroup => cases org <;> exact Nat.succ_ne_zero _
    | Bank => cases org <;> exact Nat.succ_ne_zero _
    | Row => exact absurd hle (by decide)
    | Column => exact absurd hle (by decide)
  readLatency := DDR4.readLatency speed org

end OnnxSim.Ram
