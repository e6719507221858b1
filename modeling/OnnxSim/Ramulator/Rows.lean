import OnnxSim.Ramulator.Ddr4
import OnnxSim.Ramulator.Timing

/-!
# Open rows

Which row of a bank is open is a matter of the commands issued so far: the row of the last activation,
unless it has been closed since (`openRow`). The states in the tree say the same
(`DRAM.Stands.updateState`), and so does what `decode` asks for (`DRAM.Stands.decode_access`,
`DRAM.Stands.decode_refresh`).
-/

namespace OnnxSim.Ram

variable {spec : Spec} {log : List Issue} {e : Issue} {path p : AddrVec} {cmd : Command}

/-- The command closes the row of the bank of `p`. -/
def Closes (e : Issue) (p : AddrVec) : Prop :=
  (e.cmd = .PRE ∨ e.cmd = .RDA ∨ e.cmd = .WRA) ∧ e.addr.Agree 4 p ∨ e.cmd = .PREA ∧ e.addr.Agree 2 p

instance (e : Issue) (p : AddrVec) : Decidable (Closes e p) := by
  unfold Closes
  infer_instance

/-- What a command makes of the open row of the bank of `p`. -/
def rowStep (p : AddrVec) (row : Option Int) (e : Issue) : Option Int :=
  if Closes e p then none
  else if e.cmd = .ACT ∧ e.addr.Agree 4 p then some (e.addr.get Level.Row.toNat)
  else row

/-- The open row of the bank of `p` after `log`. -/
def openRow (log : List Issue) (p : AddrVec) : Option Int := log.foldl (rowStep p) none

theorem openRow_snoc (log : List Issue) (e : Issue) (p : AddrVec) :
    openRow (log ++ [e]) p = rowStep p (openRow log p) e := by
  unfold openRow
  rw [List.foldl_append]
  rfl

theorem rowStep_congr {q : AddrVec} (h : p.Agree 4 q) (row : Option Int) :
    rowStep p row e = rowStep q row e := by
  have hagree : ∀ k ≤ 4, (e.addr.Agree k p ↔ e.addr.Agree k q) := by
    intro k hk
    refine forall₂_congr fun i hi => ?_
    rw [h i (by omega)]
  unfold rowStep Closes
  simp only [hagree 4 le_rfl, hagree 2 (by decide)]

/-- It is a matter of the bank. -/
theorem openRow_congr {q : AddrVec} (h : p.Agree 4 q) (log : List Issue) :
    openRow log p = openRow log q := by
  induction log using List.reverseRecOn with
  | nil => rfl
  | append_singleton log e ih => rw [openRow_snoc, openRow_snoc, ih, rowStep_congr h]

/-- The commands that open or close. -/
def movesRow : Command → Bool
  | .ACT | .PRE | .PREA | .RDA | .WRA => true
  | _ => false

theorem rowStep_other (h : movesRow e.cmd = false) (row : Option Int) : rowStep p row e = row := by
  obtain ⟨cmd, addr, clk⟩ := e
  cases cmd <;> simp_all [movesRow, rowStep, Closes]

/-- A command for another bank. -/
theorem rowStep_away (hprea : e.cmd ≠ .PREA) (h : ¬ e.addr.Agree 4 p) (row : Option Int) :
    rowStep p row e = row := by
  unfold rowStep Closes
  simp [hprea, h]

theorem rowStep_act (hcmd : e.cmd = .ACT) (h : e.addr.Agree 4 p) (row : Option Int) :
    rowStep p row e = some (e.addr.get Level.Row.toNat) := by
  unfold rowStep Closes
  simp [hcmd, h]

theorem rowStep_pre (hcmd : e.cmd = .PRE) (h : e.addr.Agree 4 p) (row : Option Int) :
    rowStep p row e = none := by
  unfold rowStep Closes
  simp [hcmd, h]

theorem rowStep_prea (hcmd : e.cmd = .PREA) (row : Option Int) :
    rowStep p row e = if e.addr.Agree 2 p then none else row := by
  unfold rowStep Closes
  simp [hcmd]

/-! ## The states of the nodes -/

/-- The state of a bank with this open row. -/
def BankState (row : Option Int) (n : Node) : Prop :=
  match row with
  | none => n.state = .Closed ∧ n.rowState = []
  | some row => n.state = .Opened ∧ n.rowState = [row]

/-- The states of a rank that never refreshes itself. -/
def RankState (n : Node) : Prop :=
  n.state = .PowerUp ∨ n.state = .ActPowerDown ∨ n.state = .PrePowerDown

namespace DRAM

variable {d : DRAM}

theorem transition_none {addr : AddrVec} (h : spec.lambda d.node.level cmd = none) :
    d.transition spec cmd addr = d := by
  unfold transition
  rw [h]

theorem transition_some {addr : AddrVec} {f : DRAM → Int → DRAM}
    (h : spec.lambda d.node.level cmd = some f) :
    d.transition spec cmd addr = f d (d.childId addr) := by
  unfold transition
  rw [h]

theorem prerequisite_none {addr : AddrVec} (h : spec.prereq d.node.level cmd = none) :
    d.prerequisite spec cmd addr = some none := by
  unfold prerequisite
  rw [h]

theorem prerequisite_some {addr : AddrVec} {f : DRAM → Command → Int → Option (Option Command)}
    (h : spec.prereq d.node.level cmd = some f) :
    d.prerequisite spec cmd addr = f d cmd (d.childId addr) := by
  unfold prerequisite
  rw [h]

/-- The states in a tree after `log`; `path` leads to its root. -/
def Stands (spec : Spec) (log : List Issue) : DRAM → AddrVec → Prop
  | leaf n, path => n.level = .Bank ∧ path.length = n.level.toNat + 1 ∧ BankState (openRow log path) n
  | branch n size children, path => n.level.toNat < Level.Bank.toNat ∧
      path.length = n.level.toNat + 1 ∧ size = spec.count n.level.child ∧
      (n.level = .Rank → RankState n) ∧
      ∀ i < size, (children i).node.level = n.level.child ∧ (children i).node.id = i ∧
        Stands spec log (children i) (path ++ [(i : Int)])

/-- The open rows of the banks below are all that matters. -/
theorem Stands.congr {log' : List Issue} (h : d.Stands spec log path)
    (hsame : ∀ p, path <+: p → openRow log' p = openRow log p) : d.Stands spec log' path := by
  induction d generalizing path with
  | leaf n =>
    obtain ⟨hlevel, hlength, hbank⟩ := h
    exact ⟨hlevel, hlength, by rw [hsame path (List.prefix_refl path)]; exact hbank⟩
  | branch n size children ih =>
    obtain ⟨hlevel, hlength, hsize, hrank, hchildren⟩ := h
    refine ⟨hlevel, hlength, hsize, hrank, fun i hi => ?_⟩
    obtain ⟨hchild, hid, hstands⟩ := hchildren i hi
    exact ⟨hchild, hid, ih i hstands fun p hp => hsame p ((List.prefix_append path _).trans hp)⟩

theorem Stands.new (hstart : spec.start = HBM.start)
    (hcount : ∀ level : Level, level.toNat ≤ Level.Bank.toNat → spec.count level ≠ 0) {level : Level}
    {levels : Nat} {id : Nat} (hlevel : level.toNat ≤ Level.Bank.toNat)
    (hlevels : Level.Bank.toNat ≤ level.toNat + levels) (hlength : path.length = level.toNat + 1) :
    (DRAM.new spec levels level id).Stands spec [] path := by
  induction levels generalizing level path id with
  | zero =>
    obtain rfl : level = .Bank := Level.eq_of_toNat (by omega)
    exact ⟨rfl, hlength, by rw [newNode, hstart]; rfl, rfl⟩
  | succ levels ih =>
    unfold DRAM.new
    split
    · rename_i hstop
      obtain rfl : level = .Bank := by
        cases level <;> simp_all [Level.child, Level.toNat]
      exact ⟨rfl, hlength, by rw [newNode, hstart]; rfl, rfl⟩
    · rename_i hgo
      have hlt : level.toNat < Level.Bank.toNat := by
        cases level <;> simp_all [Level.child, Level.toNat]
      have hchild := child_toNat hlt
      refine ⟨hlt, hlength, rfl, ?_, fun i _ => ⟨?_, ?_, ?_⟩⟩
      · intro hrank
        change level = .Rank at hrank
        subst hrank
        exact .inl (by rw [newNode, hstart]; rfl)
      · cases levels with
        | zero => rfl
        | succ levels =>
          unfold DRAM.new
          split <;> rfl
      · cases levels with
        | zero => rfl
        | succ levels =>
          unfold DRAM.new
          split <;> rfl
      · exact ih (by omega) (by omega) (by rw [List.length_append, hlength, hchild]; rfl)

/-- Times and the requests served do not matter. -/
theorem Stands.lift {d' : DRAM} (h : d.Stands spec log path) (hsame : d'.Lift Node.SameRows d) :
    d'.Stands spec log path := by
  induction hsame generalizing path with
  | leaf node =>
    obtain ⟨hlevel, hlength, hbank⟩ := h
    refine ⟨node.level.trans hlevel, by rw [node.level]; exact hlength, ?_⟩
    unfold BankState at hbank ⊢
    rw [node.state, node.rowState]
    exact hbank
  | branch node children ih =>
    obtain ⟨hlevel, hlength, hsize, hrank, hchildren⟩ := h
    refine ⟨by rw [node.level]; exact hlevel, by rw [node.level]; exact hlength,
      by rw [node.level]; exact hsize, fun hlevel' => ?_, fun i hi => ?_⟩
    · unfold RankState
      rw [node.state]
      exact hrank (by rw [← node.level]; exact hlevel')
    · obtain ⟨hchild, hid, hstands⟩ := hchildren i hi
      exact ⟨by rw [(children i).node.level, node.level]; exact hchild,
        (children i).node.id.trans hid, ih i hstands⟩

theorem Stands.updateTiming (h : d.Stands spec log path) (cmd : Command) (addr : AddrVec) (clk : Nat) :
    (d.updateTiming spec cmd addr clk).Stands spec log path :=
  h.lift ((updateTiming_kept spec cmd addr clk d).mono fun _ _ hkept =>
    ⟨congrArg (·.1.1) hkept, congrArg (·.1.2) hkept, congrArg (·.2.1.1) hkept,
      congrArg (·.2.1.2) hkept⟩)

theorem get_of_prefix {k : Nat} (h : path <+: p) (hk : k < path.length) : p.get k = path.get k := by
  obtain ⟨rest, rfl⟩ := h
  unfold AddrVec.get
  rw [List.getD_eq_getElem?_getD, List.getD_eq_getElem?_getD, List.getElem?_append_left hk]

/-- A child that the address does not lead to. -/
theorem agree_of_child {k i : Nat} {addr : AddrVec} (hlength : path.length = k)
    (hp : path ++ [(i : Int)] <+: p) {m : Nat} (hm : k < m) (hagree : addr.Agree m p) :
    addr.get k = i := by
  have hlt : k < (path ++ [(i : Int)]).length := by
    rw [List.length_append, List.length_singleton]
    omega
  have hself := get_append_self path (i : Int)
  rw [hlength] at hself
  rw [hagree k hm, get_of_prefix hp hlt, hself]

/-! ### A command for a bank -/

/-- What `decode` may ask for on behalf of a read or a write: a command for one bank. -/
def BankCommand (cmd : Command) : Prop := cmd = .ACT ∨ cmd = .PRE ∨ cmd = .RD ∨ cmd = .WR

theorem BankCommand.lambda (h : BankCommand cmd) (hstd : Standard spec) {level : Level}
    (hlevel : level.toNat < Level.Bank.toNat) : spec.lambda level cmd = none := by
  have hpim : cmd ≠ .PIM_WR := by
    rcases h with rfl | rfl | rfl | rfl <;> simp
  rw [hstd.lambda level cmd hpim]
  rcases h with rfl | rfl | rfl | rfl <;> cases level <;> first | rfl | exact absurd hlevel (by decide)

theorem BankCommand.scope (h : BankCommand cmd) (hstd : Standard spec) {level : Level}
    (hlevel : level.toNat < Level.Bank.toNat) : level ≠ spec.scope cmd := by
  rw [hstd.scope]
  rcases h with rfl | rfl | rfl | rfl <;> cases level <;>
    first | exact absurd hlevel (by decide) | decide

/-- The command at the bank. -/
theorem BankCommand.transition (h : BankCommand e.cmd) (hstd : Standard spec) {n : Node}
    (hlevel : n.level = .Bank) (hbank : BankState (openRow log path) n)
    (hagree : e.addr.Agree 4 path) (hact : e.cmd = .ACT → openRow log path = none) :
    ∃ m, (leaf n).transition spec e.cmd e.addr = leaf m ∧ m.level = .Bank ∧
      BankState (openRow (log ++ [e]) path) m := by
  have hpim : e.cmd ≠ .PIM_WR := by
    rcases h with h | h | h | h <;> rw [h] <;> decide
  have hlambda : spec.lambda (leaf n).node.level e.cmd = HBM.lambda .Bank e.cmd := by
    rw [hstd.lambda _ e.cmd hpim]
    exact congrArg (HBM.lambda · e.cmd) hlevel
  rw [openRow_snoc]
  rcases h with h | h | h | h
  · have heq : (leaf n).transition spec e.cmd e.addr = HBM.open_ (leaf n) _ :=
      transition_some (hlambda.trans (by rw [h]; rfl))
    rw [heq, rowStep_act h hagree]
    rw [hact h] at hbank
    refine ⟨_, rfl, hlevel, rfl, ?_⟩
    change n.rowState.insert _ = _
    rw [hbank.2]
    change [e.addr.get (n.level.toNat + 1)] = _
    rw [hlevel]
    rfl
  · have heq : (leaf n).transition spec e.cmd e.addr = HBM.close (leaf n) :=
      transition_some (f := fun node _ => HBM.close node) (hlambda.trans (by rw [h]; rfl))
    rw [heq, rowStep_pre h hagree]
    exact ⟨_, rfl, hlevel, rfl, rfl⟩
  -- an access changes nothing
  all_goals
    have heq : (leaf n).transition spec e.cmd e.addr = leaf n :=
      transition_some (f := fun node _ => node) (hlambda.trans (by rw [h]; rfl))
    rw [heq, rowStep_other (by rw [h]; rfl)]
    exact ⟨n, rfl, hlevel, hbank⟩

theorem Stands.updateState_bank (hstd : Standard spec) {id : Nat} (hcmd : BankCommand e.cmd)
    (hin : InChannel spec id e.addr) (hact : e.cmd = .ACT → openRow log e.addr = none) {levels : Nat}
    (h : d.Stands spec log path) (hagree : e.addr.Agree (d.node.level.toNat + 1) path)
    (hlevels : Level.Bank.toNat ≤ d.node.level.toNat + levels) :
    (d.updateState spec e.cmd e.addr levels).Stands spec (log ++ [e]) path := by
  induction levels generalizing d path with
  | zero =>
    cases d with
    | leaf n =>
      obtain ⟨hlevel, hlength, hbank⟩ := h
      change e.addr.Agree (n.level.toNat + 1) path at hagree
      rw [hlevel] at hagree
      obtain ⟨m, hm, hmlevel, hmbank⟩ := hcmd.transition hstd hlevel hbank hagree
        fun ha => by rw [← openRow_congr hagree]; exact hact ha
      unfold updateState
      rw [hm]
      exact ⟨hmlevel, by rw [hmlevel, ← hlevel]; exact hlength, hmbank⟩
    | branch n size children =>
      obtain ⟨hlevel, -⟩ := h
      change Level.Bank.toNat ≤ n.level.toNat + 0 at hlevels
      omega
  | succ levels ih =>
    cases d with
    | leaf n =>
      obtain ⟨hlevel, hlength, hbank⟩ := h
      change e.addr.Agree (n.level.toNat + 1) path at hagree
      rw [hlevel] at hagree
      obtain ⟨m, hm, hmlevel, hmbank⟩ := hcmd.transition hstd hlevel hbank hagree
        fun ha => by rw [← openRow_congr hagree]; exact hact ha
      unfold updateState
      rw [hm]
      exact ⟨hmlevel, by rw [hmlevel, ← hlevel]; exact hlength, hmbank⟩
    | branch n size children =>
      obtain ⟨hlevel, hlength, hsize, hrank, hchildren⟩ := h
      change e.addr.Agree (n.level.toNat + 1) path at hagree
      change Level.Bank.toNat ≤ n.level.toNat + (levels + 1) at hlevels
      have htransition : (branch n size children).transition spec e.cmd e.addr =
          branch n size children := transition_none (hcmd.lambda hstd hlevel)
      have hchild := child_toNat hlevel
      have hnext := hin.below n.level.child (by omega)
        (by rw [hchild]; exact hlevel)
      rw [hchild] at hnext
      unfold updateState
      rw [htransition]
      simp only [if_neg (hcmd.scope hstd hlevel)]
      refine ⟨hlevel, hlength, hsize, hrank, fun i hi => ?_⟩
      obtain ⟨hclevel, hid, hstands⟩ := hchildren i hi
      by_cases hi' : i = (e.addr.get (n.level.toNat + 1)).toNat
      · have hself : e.addr.get (n.level.toNat + 1) = i := by omega
        subst hi'
        rw [Function.update_self]
        have hframe := updateState_frame spec e.cmd e.addr levels
          (children (e.addr.get (n.level.toNat + 1)).toNat)
        refine ⟨hframe.node.1.level.trans hclevel, hframe.node.1.id.trans hid, ih hstands ?_ ?_⟩
        · rw [hclevel, hchild, agree_append hlength]
          exact ⟨hagree, hself⟩
        · rw [hclevel, hchild]
          omega
      · rw [Function.update_of_ne hi']
        refine ⟨hclevel, hid, hstands.congr fun p hp => ?_⟩
        have hprea : e.cmd ≠ .PREA := by
          rcases hcmd with h | h | h | h <;> rw [h] <;> decide
        have hbank : Level.Bank.toNat = 3 := rfl
        rw [openRow_snoc, rowStep_away hprea]
        intro hagree'
        have hget := agree_of_child hlength hp (by omega) hagree'
        omega

/-! ### A command for a rank -/

/-- What `decode` may ask for besides. -/
def RankCommand (cmd : Command) : Prop := cmd = .PREA ∨ cmd = .REF ∨ cmd = .PDE ∨ cmd = .PDX

/-- Every bank below, closed. -/
theorem Stands.close {log' : List Issue} (h : d.Stands spec log path) (hlevel : d.node.level = .Bank)
    (hclosed : openRow log' path = none) : (HBM.close d).Stands spec log' path := by
  cases d with
  | leaf n =>
    obtain ⟨hlevel, hlength, -⟩ := h
    refine ⟨hlevel, hlength, ?_⟩
    rw [hclosed]
    exact ⟨rfl, rfl⟩
  | branch n size children =>
    obtain ⟨hlt, -⟩ := h
    change n.level = .Bank at hlevel
    rw [hlevel] at hlt
    exact absurd hlt (Nat.lt_irrefl _)

theorem Stands.mapChildren {log' : List Issue} {f : DRAM → DRAM} (h : d.Stands spec log path)
    (hlevel : d.node.level.toNat < Level.Bank.toNat)
    (hf : ∀ i < d.size, (d.child i).Stands spec log (path ++ [(i : Int)]) →
      (d.child i).node.level = d.node.level.child →
      (f (d.child i)).node.level = (d.child i).node.level ∧ (f (d.child i)).node.id = (d.child i).node.id ∧
        (f (d.child i)).Stands spec log' (path ++ [(i : Int)])) :
    (HBM.mapChildren f d).Stands spec log' path := by
  cases d with
  | leaf n =>
    obtain ⟨hbank, -⟩ := h
    change n.level.toNat < _ at hlevel
    rw [hbank] at hlevel
    exact absurd hlevel (Nat.lt_irrefl _)
  | branch n size children =>
    obtain ⟨hlt, hlength, hsize, hrank, hchildren⟩ := h
    refine ⟨hlt, hlength, hsize, hrank, fun i hi => ?_⟩
    obtain ⟨hclevel, hid, hstands⟩ := hchildren i hi
    obtain ⟨hlevel', hid', hstands'⟩ := hf i hi hstands hclevel
    simp only [if_pos hi]
    exact ⟨hlevel'.trans hclevel, hid'.trans hid, hstands'⟩

/-- The rank that a command is for. -/
theorem Stands.transition_rank (hstd : Standard spec) (hcmd : RankCommand e.cmd)
    (h : d.Stands spec log path) (hlevel : d.node.level = .Rank) (hagree : e.addr.Agree 2 path) :
    (d.transition spec e.cmd e.addr).Stands spec (log ++ [e]) path := by
  have hpim : e.cmd ≠ .PIM_WR := by
    rcases hcmd with h | h | h | h <;> rw [h] <;> decide
  unfold DRAM.transition
  rw [hstd.lambda _ e.cmd hpim, hlevel]
  -- a change of the rank's own state
  have hset : ∀ state, (state = .PowerUp ∨ state = .ActPowerDown ∨ state = .PrePowerDown) →
      e.cmd ≠ .PREA → (HBM.setState state d).Stands spec (log ++ [e]) path := by
    intro state hstate hprea
    have hsame : ∀ p, openRow (log ++ [e]) p = openRow log p := by
      intro p
      rw [openRow_snoc]
      rcases hcmd with h | h | h | h
      · exact absurd h hprea
      all_goals
        exact rowStep_other (by rw [h]; rfl) _
    cases d with
    | leaf n =>
      obtain ⟨hbank, -⟩ := h
      change n.level = .Rank at hlevel
      rw [hbank] at hlevel
      cases hlevel
    | branch n size children =>
      have hstands : (branch n size children).Stands spec (log ++ [e]) path :=
        h.congr fun p _ => hsame p
      obtain ⟨hlt, hlength, hsize, -, hchildren⟩ := hstands
      exact ⟨hlt, hlength, hsize, fun _ => hstate, hchildren⟩
  rcases hcmd with h' | h' | h' | h'
  · rw [h']
    change (HBM.mapChildren (HBM.mapChildren HBM.close) d).Stands spec (log ++ [e]) path
    have hclosed : ∀ p, path <+: p → openRow (log ++ [e]) p = none := by
      intro p hp
      have hlength : 2 ≤ path.length := by
        cases d with
        | leaf n =>
          obtain ⟨-, hlength, -⟩ := h
          change n.level = .Rank at hlevel
          rw [hlength, hlevel]
          decide
        | branch n size children =>
          obtain ⟨-, hlength, -⟩ := h
          change n.level = .Rank at hlevel
          rw [hlength, hlevel]
          decide
      rw [openRow_snoc, rowStep_prea h', if_pos]
      intro k hk
      rw [hagree k hk, get_of_prefix hp (by omega)]
    refine h.mapChildren (by rw [hlevel]; decide) fun g hg hstands hglevel => ?_
    have hframe := HBM.mapChildren_frame HBM.close_frame (d.child g)
    rw [hlevel] at hglevel
    refine ⟨hframe.node.1.level, hframe.node.1.id, hstands.mapChildren (by rw [hglevel]; decide) ?_⟩
    intro b hb hbstands hblevel
    have hbframe := HBM.close_frame ((d.child g).child b)
    rw [hglevel] at hblevel
    exact ⟨hbframe.node.1.level, hbframe.node.1.id, hbstands.close hblevel
      (hclosed _ (by rw [List.append_assoc]; exact List.prefix_append ..))⟩
  · rw [h']
    refine h.congr fun p _ => ?_
    rw [openRow_snoc]
    exact rowStep_other (by rw [h']; rfl) _
  · rw [h']
    change (HBM.powerDown d).Stands spec (log ++ [e]) path
    unfold HBM.powerDown
    split
    · exact hset .PrePowerDown (.inr (.inr rfl)) (by rw [h']; decide)
    · exact hset .ActPowerDown (.inr (.inl rfl)) (by rw [h']; decide)
  · rw [h']
    exact hset .PowerUp (.inl rfl) (by rw [h']; decide)

theorem RankCommand.scope (hcmd : RankCommand cmd) (hstd : Standard spec) : spec.scope cmd = .Rank := by
  rw [hstd.scope]
  rcases hcmd with rfl | rfl | rfl | rfl <;> rfl

theorem Stands.updateState_rank (hstd : Standard spec) (hcmd : RankCommand e.cmd)
    (h : d.Stands spec log path) (hlevel : d.node.level = .Channel) (hagree : e.addr.Agree 1 path)
    (hrank : 0 ≤ e.addr.get 1 ∧ e.addr.get 1 < spec.count .Rank) {levels : Nat} :
    (d.updateState spec e.cmd e.addr (levels + 1)).Stands spec (log ++ [e]) path := by
  have hpim : e.cmd ≠ .PIM_WR := by
    rcases hcmd with h | h | h | h <;> rw [h] <;> decide
  have htransition : d.transition spec e.cmd e.addr = d := by
    unfold DRAM.transition
    rw [hstd.lambda _ e.cmd hpim, hlevel]
    rcases hcmd with h | h | h | h <;> rw [h] <;> rfl
  cases d with
  | leaf n =>
    obtain ⟨hbank, -⟩ := h
    change n.level = .Channel at hlevel
    rw [hbank] at hlevel
    cases hlevel
  | branch n size children =>
    obtain ⟨hlt, hlength, hsize, hpower, hchildren⟩ := h
    change n.level = .Channel at hlevel
    unfold updateState
    rw [htransition]
    have hscope : n.level ≠ spec.scope e.cmd := by
      rw [hlevel, hcmd.scope hstd]
      decide
    simp only [if_neg hscope]
    have hget : n.level.toNat + 1 = 1 := by rw [hlevel]; rfl
    rw [hget]
    refine ⟨hlt, hlength, hsize, hpower, fun i hi => ?_⟩
    obtain ⟨hclevel, hid, hstands⟩ := hchildren i hi
    rw [hlevel] at hclevel hlength
    by_cases hi' : i = (e.addr.get 1).toNat
    · have hself : e.addr.get 1 = i := by omega
      have hchannel : path.length = Level.Channel.toNat + 1 := hlength
      have hagree' : e.addr.Agree 2 (path ++ [(i : Int)]) :=
        (agree_append hchannel _).mpr ⟨hagree, hself⟩
      have hrankStands := hstands.transition_rank hstd hcmd hclevel hagree'
      have hframe := transition_frame spec e.cmd e.addr (children i)
      have hstop : (children i).updateState spec e.cmd e.addr levels =
          (children i).transition spec e.cmd e.addr := by
        cases levels with
        | zero => rfl
        | succ levels =>
          unfold updateState
          generalize (children i).transition spec e.cmd e.addr = t at hframe
          cases t with
          | leaf m => rfl
          | branch m size' children' =>
            have hm : m.level = spec.scope e.cmd := by
              rw [hcmd.scope hstd]
              exact hframe.node.1.level.trans hclevel
            simp only [if_pos hm]
      subst hi'
      rw [Function.update_self, hstop, hlevel]
      exact ⟨hframe.node.1.level.trans hclevel, hframe.node.1.id.trans hid, hrankStands⟩
    · rw [Function.update_of_ne hi', hlevel]
      refine ⟨hclevel, hid, hstands.congr fun p hp => ?_⟩
      rw [openRow_snoc]
      rcases hcmd with h | h | h | h
      · rw [rowStep_prea h, if_neg]
        intro hagree'
        have hget' := agree_of_child hlength hp (by decide : Level.Channel.toNat + 1 < 2) hagree'
        change e.addr.get 1 = _ at hget'
        omega
      all_goals
        exact rowStep_other (by rw [h]; rfl) _

/-! ### What `decode` asks for -/

/-- What a read or a write needs next at its bank. -/
def needed (cmd : Command) (row : Option Int) (addr : AddrVec) : Command :=
  match row with
  | none => .ACT
  | some row => if addr.get Level.Row.toNat = row then cmd else .PRE

/-- A read or a write asks for its rank to be powered up, or for what its bank needs. -/
theorem Stands.decode_access (hstd : Standard spec) {id : Nat} {addr : AddrVec}
    (hcmd : cmd = .RD ∨ cmd = .WR) (hin : InChannel spec id addr) (h : d.Stands spec log path)
    (hagree : addr.Agree (d.node.level.toNat + 1) path) :
    d.decode spec cmd addr = some .PDX ∨
      d.decode spec cmd addr = some (needed cmd (openRow log addr) addr) := by
  have hprereq : ∀ level, spec.prereq level cmd = HBM.prereq level cmd := by
    intro level
    rcases hcmd with rfl | rfl <;> exact hstd.prereq level _ (by decide) (by decide)
  induction d generalizing path with
  | leaf n =>
    obtain ⟨hlevel, hlength, hbank⟩ := h
    change addr.Agree (n.level.toNat + 1) path at hagree
    rw [hlevel] at hagree
    right
    have hbankRd : prerequisite spec cmd addr (leaf n) =
        some (some (needed cmd (openRow log addr) addr)) := by
      have hbankPrereq : spec.prereq (leaf n).node.level cmd = some HBM.prereqBankRd := by
        change spec.prereq n.level cmd = _
        rw [hprereq, hlevel]
        rcases hcmd with rfl | rfl <;> rfl
      rw [prerequisite_some hbankPrereq]
      simp only [HBM.prereqBankRd, node, childId, hlevel]
      rw [openRow_congr hagree]
      unfold BankState at hbank
      cases hrow : openRow log path with
      | none =>
        rw [hrow] at hbank
        rw [hbank.1]
        rfl
      | some row =>
        rw [hrow] at hbank
        rw [hbank.1, hbank.2]
        change (if addr.get Level.Row.toNat ∈ [row] then some (some cmd) else some (some .PRE)) =
          some (some (if addr.get Level.Row.toNat = row then cmd else .PRE))
        simp only [List.mem_singleton]
        by_cases hsame : addr.get Level.Row.toNat = row
        · rw [if_pos hsame, if_pos hsame]
        · rw [if_neg hsame, if_neg hsame]
    unfold decode
    rw [hbankRd]
    rfl
  | branch n size children ih =>
    obtain ⟨hlevel, hlength, hsize, hrank, hchildren⟩ := h
    change addr.Agree (n.level.toNat + 1) path at hagree
    have hchild := child_toNat hlevel
    have hnext := hin.below n.level.child (by omega) (by rw [hchild]; exact hlevel)
    rw [hchild] at hnext
    have hrest : (decode spec cmd addr (children (addr.get (n.level.toNat + 1)).toNat)) = some .PDX ∨
        (decode spec cmd addr (children (addr.get (n.level.toNat + 1)).toNat)) =
          some (needed cmd (openRow log addr) addr) := by
      obtain ⟨hclevel, hid, hstands⟩ := hchildren (addr.get (n.level.toNat + 1)).toNat (by omega)
      refine ih _ hstands ?_
      rw [hclevel, hchild, agree_append hlength]
      exact ⟨hagree, by omega⟩
    have hdescend : prerequisite spec cmd addr (branch n size children) = some none →
        decode spec cmd addr (branch n size children) =
          decode spec cmd addr (children (addr.get (n.level.toNat + 1)).toNat) := by
      intro hnone
      rw [decode, hnone]
      simp only [Option.bind_eq_bind, Option.bind_some]
      rw [if_neg (by omega)]
    have hdown : prerequisite spec cmd addr (branch n size children) = some (some .PDX) →
        decode spec cmd addr (branch n size children) = some .PDX := by
      intro hpdx
      rw [decode, hpdx]
      rfl
    by_cases hrankLevel : n.level = .Rank
    · have hrankRd : prerequisite spec cmd addr (branch n size children) =
          HBM.prereqRankRd (branch n size children) cmd
            (childId addr (branch n size children)) := by
        refine prerequisite_some ?_
        change spec.prereq n.level cmd = _
        rw [hprereq, hrankLevel]
        rcases hcmd with rfl | rfl <;> rfl
      rcases hrank hrankLevel with hstate | hstate | hstate
      · rw [hdescend (by rw [hrankRd]; simp only [HBM.prereqRankRd, node, hstate])]
        exact hrest
      · exact .inl (hdown (by rw [hrankRd]; simp only [HBM.prereqRankRd, node, hstate]))
      · exact .inl (hdown (by rw [hrankRd]; simp only [HBM.prereqRankRd, node, hstate]))
    · have hnone : prerequisite spec cmd addr (branch n size children) = some none := by
        have hprereqNone : spec.prereq n.level cmd = none := by
          rw [hprereq]
          generalize n.level = level at hlevel hrankLevel
          rcases hcmd with rfl | rfl <;> cases level <;>
            first | rfl | exact absurd rfl hrankLevel | exact absurd hlevel (by decide)
        exact prerequisite_none hprereqNone
      rw [hdescend hnone]
      exact hrest

/-- A bank is closed exactly when it has no open row. -/
theorem Stands.closed_iff (h : d.Stands spec log path) (hlevel : d.node.level = .Bank) :
    d.node.state = .Closed ↔ openRow log path = none := by
  cases d with
  | branch n size children =>
    obtain ⟨hlt, -⟩ := h
    change n.level = .Bank at hlevel
    rw [hlevel] at hlt
    exact absurd hlt (Nat.lt_irrefl _)
  | leaf n =>
    obtain ⟨-, -, hbank⟩ := h
    unfold BankState at hbank
    cases hrow : openRow log path with
    | none =>
      rw [hrow] at hbank
      exact iff_of_true hbank.1 rfl
    | some row =>
      rw [hrow] at hbank
      refine iff_of_false ?_ (Option.some_ne_none row)
      change n.state ≠ .Closed
      rw [hbank.1]
      decide

/-- The children of a node above the banks. -/
theorem Stands.child (h : d.Stands spec log path) (hlevel : d.node.level.toNat < Level.Bank.toNat) :
    d.size = spec.count d.node.level.child ∧ ∀ i < d.size,
      (d.child i).node.level = d.node.level.child ∧ (d.child i).node.id = i ∧
        (d.child i).Stands spec log (path ++ [(i : Int)]) := by
  cases d with
  | leaf n =>
    obtain ⟨hbank, -⟩ := h
    change n.level.toNat < _ at hlevel
    rw [hbank] at hlevel
    exact absurd hlevel (Nat.lt_irrefl _)
  | branch n size children =>
    obtain ⟨-, -, hsize, -, hchildren⟩ := h
    exact ⟨hsize, hchildren⟩

theorem Stands.banks_closed (h : d.Stands spec log path) (hlevel : d.node.level = .Rank) :
    ((HBM.banks d).all fun bank => bank.node.state = .Closed) = true ↔
      ∀ g < spec.count .BankGroup, ∀ b < spec.count .Bank,
        openRow log (path ++ [(g : Int)] ++ [(b : Int)]) = none := by
  obtain ⟨hsize, hgroups⟩ := h.child (by rw [hlevel]; decide)
  rw [hlevel] at hsize hgroups
  change d.size = spec.count .BankGroup at hsize
  unfold HBM.banks
  simp only [List.all_flatMap, List.all_map, List.all_eq_true, List.mem_range, Function.comp_apply,
    decide_eq_true_eq]
  rw [hsize] at hgroups ⊢
  refine forall₂_congr fun g hg => ?_
  obtain ⟨hglevel, -, hgstands⟩ := hgroups g hg
  obtain ⟨hgsize, hbanks⟩ := hgstands.child (by rw [hglevel]; decide)
  rw [hglevel] at hgsize hbanks
  change (d.child g).size = spec.count .Bank at hgsize
  rw [hgsize] at hbanks ⊢
  refine forall₂_congr fun b hb => ?_
  obtain ⟨hblevel, -, hbstands⟩ := hbanks b hb
  exact hbstands.closed_iff hblevel

/-- `decode` of a command for a rank, which no channel asks anything for, starts at the rank. -/
theorem Stands.decode_rank (h : d.Stands spec log path) (hlevel : d.node.level = .Channel)
    {addr : AddrVec} (hnone : spec.prereq .Channel cmd = none) (hpos : 0 ≤ addr.get 1) :
    d.decode spec cmd addr = (d.child (addr.get 1).toNat).decode spec cmd addr := by
  cases d with
  | leaf n =>
    obtain ⟨hbank, -⟩ := h
    change n.level = .Channel at hlevel
    rw [hbank] at hlevel
    cases hlevel
  | branch n size children =>
    change n.level = .Channel at hlevel
    have hprerequisite : prerequisite spec cmd addr (branch n size children) = some none := by
      refine prerequisite_none ?_
      change spec.prereq n.level cmd = none
      rw [hlevel, hnone]
    rw [decode, hprerequisite]
    simp only [Option.bind_eq_bind, Option.bind_some]
    rw [hlevel]
    change (if addr.get 1 < 0 then _ else _) = _
    rw [if_neg (by omega)]
    rfl

/-- What the rank itself asks for is what `decode` returns. -/
theorem decode_of_prerequisite {c : Command} {addr : AddrVec}
    (h : prerequisite spec cmd addr d = some (some c)) : d.decode spec cmd addr = some c := by
  cases d with
  | leaf n =>
    rw [decode, h]
    rfl
  | branch n size children =>
    rw [decode, h]
    rfl

/-- A refresh asks for all banks of its rank to be closed. -/
theorem Stands.decode_refresh (hstd : Standard spec) {addr : AddrVec} (h : d.Stands spec log path)
    (hlevel : d.node.level = .Channel)
    (hrank : 0 ≤ addr.get 1 ∧ addr.get 1 < spec.count .Rank) :
    (d.decode spec .REF addr = some .REF ∧
      ∀ g < spec.count .BankGroup, ∀ b < spec.count .Bank,
        openRow log (path ++ [addr.get 1] ++ [(g : Int)] ++ [(b : Int)]) = none) ∨
    (d.decode spec .REF addr = some .PREA ∧
      ∃ g < spec.count .BankGroup, ∃ b < spec.count .Bank,
        openRow log (path ++ [addr.get 1] ++ [(g : Int)] ++ [(b : Int)]) ≠ none) := by
  obtain ⟨hsize, hranks⟩ := h.child (by rw [hlevel]; decide)
  rw [hlevel] at hsize hranks
  change d.size = spec.count .Rank at hsize
  have hself : ((addr.get 1).toNat : Int) = addr.get 1 := Int.toNat_of_nonneg hrank.1
  obtain ⟨hrlevel, -, hrstands⟩ := hranks (addr.get 1).toNat (by omega)
  rw [hself] at hrstands
  have hclosed := hrstands.banks_closed hrlevel
  rw [h.decode_rank hlevel (by rw [hstd.prereq _ _ (by decide) (by decide)]; rfl) hrank.1]
  have hprerequisite : prerequisite spec .REF addr (d.child (addr.get 1).toNat) =
      HBM.prereqRankRef (d.child (addr.get 1).toNat) .REF
        (childId addr (d.child (addr.get 1).toNat)) := by
    unfold prerequisite
    rw [hrlevel, hstd.prereq _ _ (by decide) (by decide)]
    rfl
  unfold HBM.prereqRankRef at hprerequisite
  split at hprerequisite
  · rename_i hall
    exact .inl ⟨decode_of_prerequisite hprerequisite, hclosed.mp hall⟩
  · rename_i hnot
    refine .inr ⟨decode_of_prerequisite hprerequisite, ?_⟩
    rw [hclosed] at hnot
    push Not at hnot
    exact hnot

/-- A power down asks for nothing. -/
theorem Stands.decode_powerDown (hstd : Standard spec) {addr : AddrVec} (h : d.Stands spec log path)
    (hlevel : d.node.level = .Channel)
    (hrank : 0 ≤ addr.get 1 ∧ addr.get 1 < spec.count .Rank) :
    d.decode spec .PDE addr = some .PDE := by
  obtain ⟨hsize, hranks⟩ := h.child (by rw [hlevel]; decide)
  rw [hlevel] at hsize hranks
  change d.size = spec.count .Rank at hsize
  obtain ⟨hrlevel, -, hrstands⟩ := hranks (addr.get 1).toNat (by omega)
  rw [h.decode_rank hlevel (by rw [hstd.prereq _ _ (by decide) (by decide)]; rfl) hrank.1]
  refine decode_of_prerequisite ?_
  unfold prerequisite
  rw [hrlevel, hstd.prereq _ _ (by decide) (by decide)]
  generalize d.child (addr.get 1).toNat = r at hrlevel hrstands
  cases r with
  | leaf n =>
    obtain ⟨hbank, -⟩ := hrstands
    change n.level = .Rank at hrlevel
    rw [hbank] at hrlevel
    cases hrlevel
  | branch n size children =>
    obtain ⟨-, -, -, hpower, -⟩ := hrstands
    change HBM.prereqRankPde (branch n size children) .PDE _ = _
    rcases hpower hrlevel with hstate | hstate | hstate <;>
      simp only [HBM.prereqRankPde, node, hstate]

/-- The lookups of a row do not fail. -/
theorem Stands.checkRow (hstd : Standard spec) {id : Nat} {addr : AddrVec}
    (hcmd : cmd = .RD ∨ cmd = .WR) (hin : InChannel spec id addr) (h : d.Stands spec log path) :
    (d.checkRowHit spec cmd addr).isSome ∧ (d.checkRowOpen spec cmd addr).isSome := by
  have hhit : ∀ level, spec.rowhit level cmd = HBM.rowhit level cmd := by
    intro level
    rcases hcmd with rfl | rfl <;> exact hstd.rowhit level _ (by decide)
  have hopen : ∀ level, spec.rowopen level cmd = HBM.rowopen level cmd := by
    intro level
    rcases hcmd with rfl | rfl <;> exact hstd.rowopen level _ (by decide)
  induction d generalizing path with
  | leaf n =>
    obtain ⟨hlevel, -, hbank⟩ := h
    unfold checkRowHit checkRowOpen
    have hrowhit : spec.rowhit n.level cmd = some HBM.rowhitRd := by
      rw [hhit, hlevel]
      rcases hcmd with rfl | rfl <;> rfl
    have hrowopen : spec.rowopen n.level cmd = some HBM.rowopenRd := by
      rw [hopen, hlevel]
      rcases hcmd with rfl | rfl <;> rfl
    rw [hrowhit, hrowopen]
    unfold BankState at hbank
    simp only [HBM.rowhitRd, HBM.rowopenRd, node]
    cases hrow : openRow log path with
    | none =>
      rw [hrow] at hbank
      rw [hbank.1]
      exact ⟨rfl, rfl⟩
    | some row =>
      rw [hrow] at hbank
      rw [hbank.1]
      exact ⟨rfl, rfl⟩
  | branch n size children ih =>
    obtain ⟨hlevel, hlength, hsize, -, hchildren⟩ := h
    have hchild := child_toNat hlevel
    have hnext := hin.below n.level.child (by omega) (by rw [hchild]; exact hlevel)
    rw [hchild] at hnext
    obtain ⟨-, -, hstands⟩ := hchildren (addr.get (n.level.toNat + 1)).toNat (by omega)
    have hrest := ih _ hstands
    have hnone : spec.rowhit n.level cmd = none ∧ spec.rowopen n.level cmd = none := by
      rw [hhit, hopen]
      generalize n.level = level at hlevel
      rcases hcmd with rfl | rfl <;> cases level <;>
        first | exact ⟨rfl, rfl⟩ | exact absurd hlevel (by decide)
    have hpos : ¬ addr.get (n.level.toNat + 1) < 0 := by omega
    unfold checkRowHit checkRowOpen
    simp only [hnone.1, hnone.2, if_neg hpos]
    exact hrest

end DRAM

end OnnxSim.Ram
