import OnnxSim.Ramulator.Serving
import OnnxSim.Ramulator.Table

/-!
# Commands that fit the open rows

Accesses are for the open row, activations for a bank without one, precharges for a bank with another
one and refreshes for a rank without any (`Fits`). The command that a request needs next fits
(`DRAM.Stands.decode_fits`), and of a command that fits the states in the tree, the table of rows and the
counts say afterwards what they should.
-/

namespace OnnxSim.Ram

variable {spec : Spec} {id : Nat} {log : List Issue} {e : Issue} {cmd : Command} {addr path : AddrVec}

/-- An address of the channel, as `decode_mem_addr` makes them. -/
structure Addressed (spec : Spec) (id : Nat) (addr : AddrVec) : Prop where
  length : addr.length = 6
  inChannel : InChannel spec id addr

/-- The numbers of a rank of the channel. -/
structure RankAddr (spec : Spec) (id : Nat) (addr : AddrVec) : Prop where
  length : 2 ≤ addr.length
  channel : addr.get 0 = id
  rank : 0 ≤ addr.get 1 ∧ addr.get 1 < spec.count .Rank

/-- The address of the refreshes of a rank. -/
def rankAddr (id rank : Nat) : AddrVec := [(id : Int), (rank : Int), -1, -1, -1, -1]

theorem Addressed.rankAddr (h : Addressed spec id addr) : RankAddr spec id addr :=
  ⟨by rw [h.length]; decide, h.inChannel.channel, h.inChannel.below .Rank (by decide) (by decide)⟩

theorem RankAddr.of_rank {rank : Nat} (h : rank < spec.count .Rank) :
    RankAddr spec id (Ram.rankAddr id rank) := by
  refine ⟨Nat.le_add_left 2 4, rfl, ?_⟩
  change (0 : Int) ≤ rank ∧ (rank : Int) < spec.count .Rank
  omega

/-- A command that fits the rows that the commands of `log` have left open. -/
inductive Fits (spec : Spec) (id : Nat) (log : List Issue) : Command → AddrVec → Prop
  | act {addr : AddrVec} (addressed : Addressed spec id addr) (row : openRow log addr = none) :
      Fits spec id log .ACT addr
  | pre {addr : AddrVec} (addressed : Addressed spec id addr) {row : Int}
      (row_eq : openRow log addr = some row) (other : addr.get Level.Row.toNat ≠ row) :
      Fits spec id log .PRE addr
  | rd {addr : AddrVec} (addressed : Addressed spec id addr)
      (row : openRow log addr = some (addr.get Level.Row.toNat)) : Fits spec id log .RD addr
  | wr {addr : AddrVec} (addressed : Addressed spec id addr)
      (row : openRow log addr = some (addr.get Level.Row.toNat)) : Fits spec id log .WR addr
  | prea {addr : AddrVec} (rank : RankAddr spec id addr)
      (row : ∃ p, BankAddr spec id p ∧ addr.Agree 2 p ∧ openRow log p ≠ none) :
      Fits spec id log .PREA addr
  | ref {addr : AddrVec} (rank : RankAddr spec id addr)
      (row : ∀ p, BankAddr spec id p → addr.Agree 2 p → openRow log p = none) :
      Fits spec id log .REF addr
  | pde {addr : AddrVec} (rank : RankAddr spec id addr) : Fits spec id log .PDE addr
  | pdx {addr : AddrVec} (rank : RankAddr spec id addr) : Fits spec id log .PDX addr

theorem Fits.rankAddr (h : Fits spec id log cmd addr) : RankAddr spec id addr := by
  cases h with
  | act addressed _ => exact addressed.rankAddr
  | pre addressed _ _ => exact addressed.rankAddr
  | rd addressed _ => exact addressed.rankAddr
  | wr addressed _ => exact addressed.rankAddr
  | prea rank _ => exact rank
  | ref rank _ => exact rank
  | pde rank => exact rank
  | pdx rank => exact rank

/-- The channel of an address. -/
theorem agree_channel (h : addr.get 0 = id) : addr.Agree 1 [(id : Int)] := by
  intro k hk
  obtain rfl : k = 0 := Nat.lt_one_iff.mp hk
  exact h

/-- The banks of a rank. -/
theorem BankAddr.of_rank (hrank : RankAddr spec id addr) {g b : Nat} (hg : g < spec.count .BankGroup)
    (hb : b < spec.count .Bank) :
    BankAddr spec id ([(id : Int)] ++ [addr.get 1] ++ [(g : Int)] ++ [(b : Int)]) ∧
      addr.Agree 2 ([(id : Int)] ++ [addr.get 1] ++ [(g : Int)] ++ [(b : Int)]) := by
  refine ⟨⟨rfl, rfl, fun level hpos hle => ?_⟩, fun k hk => ?_⟩
  · cases level with
    | Channel => exact absurd hpos (Nat.lt_irrefl 0)
    | Rank => exact hrank.rank
    | BankGroup =>
      change (0 : Int) ≤ g ∧ (g : Int) < spec.count .BankGroup
      omega
    | Bank =>
      change (0 : Int) ≤ b ∧ (b : Int) < spec.count .Bank
      omega
    | Row => exact absurd hle (by decide)
    | Column => exact absurd hle (by decide)
  · rcases Nat.lt_succ_iff_lt_or_eq.mp hk with hk | rfl
    · obtain rfl : k = 0 := Nat.lt_one_iff.mp hk
      exact hrank.channel
    · rfl

/-- Each bank of a rank has its numbers. -/
theorem BankAddr.eq_of_agree {p : AddrVec} (hp : BankAddr spec id p) (hagree : addr.Agree 2 p) :
    ∃ g < spec.count .BankGroup, ∃ b < spec.count .Bank,
      p = [(id : Int)] ++ [addr.get 1] ++ [(g : Int)] ++ [(b : Int)] := by
  obtain ⟨hlength, hin⟩ := hp
  have hg := hin.below .BankGroup (by decide) (by decide)
  have hb := hin.below .Bank (by decide) (by decide)
  have hchannel := hin.channel
  have hrank := hagree 1 (by decide)
  match p, hlength with
  | [x, y, z, w], _ =>
    change x = id at hchannel
    change addr.get 1 = y at hrank
    change 0 ≤ z ∧ z < spec.count .BankGroup at hg
    change 0 ≤ w ∧ w < spec.count .Bank at hb
    refine ⟨z.toNat, by omega, w.toNat, by omega, ?_⟩
    rw [Int.toNat_of_nonneg hg.1, Int.toNat_of_nonneg hb.1, hchannel, hrank]
    rfl

namespace DRAM

variable {d : DRAM}

/-! ## What a request needs -/

/-- The commands that a read or a write needs. -/
theorem Stands.decode_fits (hstd : Standard spec) (hcmd : cmd = .RD ∨ cmd = .WR)
    (haddr : Addressed spec id addr) (h : d.Stands spec log [(id : Int)])
    (hlevel : d.node.level = .Channel) :
    ∃ first, d.decode spec cmd addr = some first ∧ Fits spec id log first addr ∧
      (first = cmd ∨ first = .ACT ∨ first = .PRE ∨ first = .PDX) := by
  have hagree : addr.Agree (d.node.level.toNat + 1) [(id : Int)] := by
    rw [hlevel]
    exact agree_channel haddr.inChannel.channel
  rcases h.decode_access hstd hcmd haddr.inChannel hagree with hdecode | hdecode
  · exact ⟨_, hdecode, .pdx haddr.rankAddr, .inr (.inr (.inr rfl))⟩
  · refine ⟨_, hdecode, ?_⟩
    cases hrow : openRow log addr with
    | none => exact ⟨.act haddr hrow, .inr (.inl rfl)⟩
    | some row =>
      by_cases hsame : addr.get Level.Row.toNat = row
      · have hneeded : needed cmd (some row) addr = cmd := if_pos hsame
        rw [hneeded]
        rw [← hsame] at hrow
        rcases hcmd with rfl | rfl
        · exact ⟨.rd haddr hrow, .inl rfl⟩
        · exact ⟨.wr haddr hrow, .inl rfl⟩
      · have hneeded : needed cmd (some row) addr = .PRE := if_neg hsame
        rw [hneeded]
        exact ⟨.pre haddr hrow hsame, .inr (.inr (.inl rfl))⟩

/-- The commands that a refresh needs. -/
theorem Stands.decode_refresh_fits (hstd : Standard spec) (hrank : RankAddr spec id addr)
    (h : d.Stands spec log [(id : Int)]) (hlevel : d.node.level = .Channel) :
    ∃ first, d.decode spec (spec.translate .REFRESH) addr = some first ∧ Fits spec id log first addr ∧
      (first = spec.translate .REFRESH ∨ first = .PREA) := by
  rcases hstd.refresh with hrefresh | hrefresh
  · rw [hrefresh]
    rcases h.decode_refresh hstd hlevel hrank.rank with ⟨hdecode, hclosed⟩ | ⟨hdecode, hopen⟩
    · refine ⟨_, hdecode, .ref hrank fun p hp hagree => ?_, .inl rfl⟩
      obtain ⟨g, hg, b, hb, rfl⟩ := hp.eq_of_agree hagree
      exact hclosed g hg b hb
    · obtain ⟨g, hg, b, hb, hrow⟩ := hopen
      obtain ⟨hbank, hagree⟩ := BankAddr.of_rank hrank hg hb
      exact ⟨_, hdecode, .prea hrank ⟨_, hbank, hagree, hrow⟩, .inr rfl⟩
  · rw [hrefresh]
    exact ⟨_, h.decode_powerDown hstd hlevel hrank.rank, .pde hrank, .inl rfl⟩

/-! ## What the command leaves -/

theorem Stands.update (hstd : Standard spec) (hfits : Fits spec id log e.cmd e.addr)
    (h : d.Stands spec log [(id : Int)]) (hlevel : d.node.level = .Channel) :
    (d.update spec e.cmd e.addr e.clk).Stands spec (log ++ [e]) [(id : Int)] := by
  have hrank := hfits.rankAddr
  have hagree := agree_channel hrank.channel
  have hbank : BankCommand e.cmd → InChannel spec id e.addr → (e.cmd = .ACT → openRow log e.addr = none) →
      (d.updateState spec e.cmd e.addr levels).Stands spec (log ++ [e]) [(id : Int)] :=
    fun hcmd hin hact => h.updateState_bank hstd hcmd hin hact
      (by rw [hlevel]; exact hagree) (by rw [hlevel]; decide)
  have hall : RankCommand e.cmd →
      (d.updateState spec e.cmd e.addr levels).Stands spec (log ++ [e]) [(id : Int)] :=
    fun hcmd => h.updateState_rank hstd hcmd hlevel hagree hrank.rank
  refine Stands.updateTiming ?_ _ _ _
  obtain ⟨cmd, addr, clk⟩ := e
  cases hfits with
  | act addressed row => exact hbank (.inl rfl) addressed.inChannel fun _ => row
  | pre addressed _ _ => exact hbank (.inr (.inl rfl)) addressed.inChannel fun h => by cases h
  | rd addressed _ => exact hbank (.inr (.inr (.inl rfl))) addressed.inChannel fun h => by cases h
  | wr addressed _ => exact hbank (.inr (.inr (.inr rfl))) addressed.inChannel fun h => by cases h
  | prea _ _ => exact hall (.inl rfl)
  | ref _ _ => exact hall (.inr (.inl rfl))
  | pde _ => exact hall (.inr (.inr (.inl rfl)))
  | pdx _ => exact hall (.inr (.inr (.inr rfl)))

theorem update_level (cmd : Command) (addr : AddrVec) (clk : Nat) :
    (d.update spec cmd addr clk).node.level = d.node.level := by
  unfold DRAM.update
  rw [updateTiming_level, (updateState_frame ..).node.1.level]

theorem Serves.update {served : List AddrVec} (h : d.Serves served path) (cmd : Command)
    (addr : AddrVec) (clk : Nat) : (d.update spec cmd addr clk).Serves served path := by
  have hstate := (updateState_frame spec cmd addr levels d).mono fun _ _ => And.right
  refine (h.lift hstate).lift ((updateTiming_kept spec cmd addr clk _).mono fun _ _ hkept => ?_)
  exact ⟨congrArg (·.1.1) hkept, congrArg (·.1.2) hkept, congrArg (·.2.2.1) hkept,
    congrArg (·.2.2.2) hkept⟩

end DRAM

/-- The table takes every command that fits. -/
theorem RowTable.Holds.update {table : RowTable} (hstd : Standard spec)
    (h : Holds spec id log table) (hfits : Fits spec id log e.cmd e.addr) :
    ∃ table', RowTable.update spec table e.cmd e.addr e.clk = some table' ∧
      Holds spec id (log ++ [e]) table' := by
  have hlength : ∀ {addr}, Addressed spec id addr → 4 ≤ addr.length := by
    intro addr haddr
    rw [haddr.length]
    decide
  obtain ⟨cmd, addr, clk⟩ := e
  cases hfits with
  | act addressed row => exact h.act hstd rfl addressed.inChannel (hlength addressed) row
  | pre addressed row_eq _ =>
    exact h.pre hstd rfl addressed.inChannel (hlength addressed) (by rw [row_eq]; exact Option.some_ne_none _)
  | rd addressed row => exact h.accessing hstd (.inl rfl) addressed.inChannel (hlength addressed) row
  | wr addressed row => exact h.accessing hstd (.inr rfl) addressed.inChannel (hlength addressed) row
  | prea rank row => exact h.prea hstd rfl rank.length row
  | ref _ _ => exact h.other hstd (.inl rfl)
  | pde _ => exact h.other hstd (.inr (.inl rfl))
  | pdx _ => exact h.other hstd (.inr (.inr rfl))

end OnnxSim.Ram
