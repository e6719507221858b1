import OnnxSim.Ramulator.Controller
import OnnxSim.Ramulator.Rows

/-!
# The table of rows

`RowTable` keeps an entry for each bank that has an open row, and asserts that the commands it is told of
fit. They do as long as they fit the open rows (`RowTable.Holds.update`).
-/

namespace OnnxSim.Ram

variable {spec : Spec} {id : Nat} {log : List Issue} {e : Issue} {addr p : AddrVec}

/-- The numbers of a bank of the channel. -/
structure BankAddr (spec : Spec) (id : Nat) (p : AddrVec) : Prop where
  length : p.length = 4
  inChannel : InChannel spec id p

theorem take_eq_iff {k : Nat} (haddr : k ≤ addr.length) (hp : k ≤ p.length) :
    p.take k = addr.take k ↔ addr.Agree k p := by
  unfold AddrVec.Agree AddrVec.get
  constructor
  · intro heq i hi
    have hget := congrArg (·[i]?) heq
    simp only [List.getElem?_take, if_pos hi] at hget
    rw [List.getD_eq_getElem?_getD, List.getD_eq_getElem?_getD, hget]
  · intro hagree
    refine List.ext_getElem? fun i => ?_
    rw [List.getElem?_take, List.getElem?_take]
    by_cases hi : i < k
    · rw [if_pos hi, if_pos hi]
      have hget := hagree i hi
      rw [List.getD_eq_getElem?_getD, List.getD_eq_getElem?_getD,
        List.getElem?_eq_getElem (by omega), List.getElem?_eq_getElem (by omega)] at hget
      rw [List.getElem?_eq_getElem (by omega), List.getElem?_eq_getElem (by omega)]
      exact congrArg some hget.symm
    · rw [if_neg hi, if_neg hi]

theorem agree_take (addr : AddrVec) : addr.Agree 4 (addr.take 4) := by
  intro k hk
  unfold AddrVec.get
  rw [List.getD_eq_getElem?_getD, List.getD_eq_getElem?_getD, List.getElem?_take, if_pos hk]

theorem InChannel.bankAddr (h : InChannel spec id addr) (hlength : 4 ≤ addr.length) :
    BankAddr spec id (addr.take 4) := by
  have hagree := agree_take addr
  refine ⟨by rw [List.length_take]; omega, ?_, fun level hpos hle => ?_⟩
  · rw [← hagree 0 (by decide)]
    exact h.channel
  · have hbank : Level.Bank.toNat = 3 := rfl
    rw [← hagree level.toNat (by omega)]
    exact h.below level hpos hle

namespace RowTable

variable {table : RowTable}

/-- The entries are the open rows. -/
structure Holds (spec : Spec) (id : Nat) (log : List Issue) (table : RowTable) : Prop where
  entry : ∀ kv ∈ table, BankAddr spec id kv.1 ∧ openRow log kv.1 = some kv.2.row
  open_ : ∀ p, BankAddr spec id p → openRow log p ≠ none → ∃ kv ∈ table, kv.1 = p

theorem Holds.nil : Holds spec id [] [] :=
  ⟨fun _ h => absurd h List.not_mem_nil, fun _ _ h => absurd rfl h⟩

/-- A command that leaves the open rows as they are. -/
theorem Holds.congr {log' : List Issue} (h : Holds spec id log table)
    (hsame : ∀ p, openRow log' p = openRow log p) : Holds spec id log' table :=
  ⟨fun kv hkv => ⟨(h.entry kv hkv).1, by rw [hsame]; exact (h.entry kv hkv).2⟩,
    fun p hp hrow => h.open_ p hp (by rw [← hsame]; exact hrow)⟩

theorem Holds.find_none (h : Holds spec id log table) (hrow : openRow log addr = none) :
    find table addr = none := by
  unfold find
  rw [List.lookup_eq_none_iff]
  intro kv hkv
  refine bne_iff_ne.mpr fun heq => ?_
  have hopen := (h.entry kv hkv).2
  rw [← heq] at hopen
  change openRow log (addr.take 4) = _ at hopen
  rw [← openRow_congr (agree_take addr), hrow] at hopen
  cases hopen

theorem Holds.find_some (h : Holds spec id log table) (hin : InChannel spec id addr)
    (hlength : 4 ≤ addr.length) {row : Int} (hrow : openRow log addr = some row) :
    ∃ entry, find table addr = some entry ∧ entry.row = row := by
  have hopen : openRow log (addr.take 4) = some row := by
    rw [← openRow_congr (agree_take addr)]
    exact hrow
  obtain ⟨kv, hkv, hkey⟩ := h.open_ _ (hin.bankAddr hlength) (by rw [hopen]; exact Option.some_ne_none _)
  cases hfind : find table addr with
  | none =>
    unfold find at hfind
    rw [List.lookup_eq_none_iff] at hfind
    exact absurd hkey.symm (bne_iff_ne.mp (hfind kv hkv))
  | some entry =>
    refine ⟨entry, rfl, ?_⟩
    unfold find at hfind
    obtain ⟨l₁, l₂, heq, -⟩ := List.lookup_eq_some_iff.mp hfind
    have hentry := (h.entry (rowgroup addr, entry) (by rw [heq]; simp)).2
    change openRow log (addr.take 4) = some entry.row at hentry
    rw [hopen] at hentry
    exact (Option.some.inj hentry).symm

/-! ## The commands -/

theorem Holds.act (hstd : Standard spec) (h : Holds spec id log table) (hcmd : e.cmd = .ACT)
    (hin : InChannel spec id e.addr) (hlength : 4 ≤ e.addr.length)
    (hrow : openRow log e.addr = none) :
    ∃ table', RowTable.update spec table e.cmd e.addr e.clk = some table' ∧
      Holds spec id (log ++ [e]) table' := by
  refine ⟨table ++ [(rowgroup e.addr, ⟨e.addr.get Level.Row.toNat, 0, e.clk⟩)], ?_, ?_, ?_⟩
  · unfold RowTable.update insert
    rw [hstd.isOpening, hstd.isAccessing, hstd.isClosing, hcmd, h.find_none hrow]
    rfl
  · intro kv hkv
    rcases List.mem_append.mp hkv with hkv | hkv
    · obtain ⟨hbank, hopen⟩ := h.entry kv hkv
      refine ⟨hbank, ?_⟩
      rw [openRow_snoc, rowStep_away (by rw [hcmd]; decide), hopen]
      intro hagree
      rw [← openRow_congr hagree, hrow] at hopen
      cases hopen
    · obtain rfl := List.mem_singleton.mp hkv
      refine ⟨hin.bankAddr hlength, ?_⟩
      rw [openRow_snoc]
      exact rowStep_act hcmd (agree_take e.addr) _
  · intro p hp hopen
    by_cases hagree : e.addr.Agree 4 p
    · refine ⟨_, List.mem_append_right _ (List.mem_singleton_self _), ?_⟩
      have htake := (take_eq_iff hlength (by rw [hp.length])).mpr hagree
      rw [List.take_of_length_le (by rw [hp.length])] at htake
      exact htake.symm
    · rw [openRow_snoc, rowStep_away (by rw [hcmd]; decide) hagree] at hopen
      obtain ⟨kv, hkv, hkey⟩ := h.open_ p hp hopen
      exact ⟨kv, List.mem_append_left _ hkv, hkey⟩

theorem Holds.accessing (hstd : Standard spec) (h : Holds spec id log table)
    (hcmd : e.cmd = .RD ∨ e.cmd = .WR) (hin : InChannel spec id e.addr) (hlength : 4 ≤ e.addr.length)
    (hrow : openRow log e.addr = some (e.addr.get Level.Row.toNat)) :
    ∃ table', RowTable.update spec table e.cmd e.addr e.clk = some table' ∧
      Holds spec id (log ++ [e]) table' := by
  obtain ⟨entry, hfind, hentry⟩ := h.find_some hin hlength hrow
  have hsame : ∀ p, openRow (log ++ [e]) p = openRow log p := by
    intro p
    rw [openRow_snoc, rowStep_other]
    rcases hcmd with hcmd | hcmd <;> rw [hcmd] <;> rfl
  have h' := h.congr hsame
  refine ⟨table.map fun kv =>
    if kv.1 = rowgroup e.addr then
      (kv.1, { kv.2 with hits := kv.2.hits + 1, timestamp := e.clk }) else kv, ?_, ?_, ?_⟩
  · unfold RowTable.update access
    rw [hstd.isOpening, hstd.isAccessing, hstd.isClosing]
    rcases hcmd with hcmd | hcmd
    all_goals
      rw [hcmd]
      simp only [HBM.isOpening, HBM.isAccessing, HBM.isClosing, hfind, Option.bind_eq_bind,
        Option.bind_some, if_pos hentry, Bool.false_eq_true, if_false, if_true]
  · intro kv hkv
    obtain ⟨kv', hkv', rfl⟩ := List.mem_map.mp hkv
    obtain ⟨hbank, hopen⟩ := h'.entry kv' hkv'
    split
    · exact ⟨hbank, hopen⟩
    · exact ⟨hbank, hopen⟩
  · intro p hp hopen
    obtain ⟨kv, hkv, rfl⟩ := h'.open_ p hp hopen
    refine ⟨_, List.mem_map_of_mem hkv, ?_⟩
    split <;> rfl

/-- A command that closes the rows of the banks that it agrees with down to `k`. -/
theorem Holds.closing (h : Holds spec id log table) {k : Nat} (hk : k + 1 ≤ 4)
    (hlength : k + 1 ≤ e.addr.length)
    (hstep : ∀ p row, rowStep p row e = if e.addr.Agree (k + 1) p then none else row)
    (hsome : ∃ p, BankAddr spec id p ∧ e.addr.Agree (k + 1) p ∧ openRow log p ≠ none) :
    (table.any fun kv => decide (kv.1.take (k + 1) = e.addr.take (k + 1))) = true ∧
      Holds spec id (log ++ [e])
        (table.filter fun kv => decide (¬ kv.1.take (k + 1) = e.addr.take (k + 1))) := by
  refine ⟨?_, ?_, ?_⟩
  · obtain ⟨p, hp, hagree, hopen⟩ := hsome
    obtain ⟨kv, hkv, hkey⟩ := h.open_ p hp hopen
    refine List.any_eq_true.mpr ⟨kv, hkv, decide_eq_true ?_⟩
    rw [hkey]
    exact (take_eq_iff hlength (by rw [hp.length]; exact hk)).mpr hagree
  · intro kv hkv
    obtain ⟨hkv, hkeep⟩ := List.mem_filter.mp hkv
    obtain ⟨hbank, hopen⟩ := h.entry kv hkv
    refine ⟨hbank, ?_⟩
    rw [openRow_snoc, hstep, if_neg, hopen]
    intro hagree
    exact of_decide_eq_true hkeep
      ((take_eq_iff hlength (by rw [hbank.length]; exact hk)).mpr hagree)
  · intro p hp hopen
    rw [openRow_snoc, hstep] at hopen
    by_cases hagree : e.addr.Agree (k + 1) p
    · rw [if_pos hagree] at hopen
      exact absurd rfl hopen
    · rw [if_neg hagree] at hopen
      obtain ⟨kv, hkv, rfl⟩ := h.open_ p hp hopen
      refine ⟨kv, List.mem_filter.mpr ⟨hkv, decide_eq_true fun heq => hagree ?_⟩, rfl⟩
      exact (take_eq_iff hlength (by rw [hp.length]; exact hk)).mp heq

theorem Holds.pre (hstd : Standard spec) (h : Holds spec id log table) (hcmd : e.cmd = .PRE)
    (hin : InChannel spec id e.addr) (hlength : 4 ≤ e.addr.length)
    (hrow : openRow log e.addr ≠ none) :
    ∃ table', RowTable.update spec table e.cmd e.addr e.clk = some table' ∧
      Holds spec id (log ++ [e]) table' := by
  obtain ⟨hany, hholds⟩ := h.closing (e := e) (k := 3) le_rfl hlength
    (fun p row => by
      by_cases hagree : e.addr.Agree 4 p
      · rw [if_pos hagree, rowStep_pre hcmd hagree]
      · rw [if_neg hagree, rowStep_away (by rw [hcmd]; decide) hagree])
    ⟨e.addr.take 4, hin.bankAddr hlength, agree_take e.addr, by
      rw [← openRow_congr (agree_take e.addr)]; exact hrow⟩
  refine ⟨_, ?_, hholds⟩
  unfold RowTable.update close
  rw [hstd.isOpening, hstd.isAccessing, hstd.isClosing, hstd.scope, hcmd]
  exact if_pos hany

theorem Holds.prea (hstd : Standard spec) (h : Holds spec id log table) (hcmd : e.cmd = .PREA)
    (hlength : 2 ≤ e.addr.length)
    (hsome : ∃ p, BankAddr spec id p ∧ e.addr.Agree 2 p ∧ openRow log p ≠ none) :
    ∃ table', RowTable.update spec table e.cmd e.addr e.clk = some table' ∧
      Holds spec id (log ++ [e]) table' := by
  obtain ⟨hany, hholds⟩ := h.closing (e := e) (k := 1) (by decide) hlength
    (fun p row => rowStep_prea hcmd row) hsome
  refine ⟨_, ?_, hholds⟩
  unfold RowTable.update close
  rw [hstd.isOpening, hstd.isAccessing, hstd.isClosing, hstd.scope, hcmd]
  exact if_pos hany

/-- The commands for a rank that leave its banks alone. -/
theorem Holds.other (hstd : Standard spec) (h : Holds spec id log table)
    (hcmd : e.cmd = .REF ∨ e.cmd = .PDE ∨ e.cmd = .PDX) :
    ∃ table', RowTable.update spec table e.cmd e.addr e.clk = some table' ∧
      Holds spec id (log ++ [e]) table' := by
  refine ⟨table, ?_, h.congr fun p => ?_⟩
  · unfold RowTable.update
    rw [hstd.isOpening, hstd.isAccessing, hstd.isClosing]
    rcases hcmd with hcmd | hcmd | hcmd <;> rw [hcmd] <;> rfl
  · rw [openRow_snoc, rowStep_other]
    rcases hcmd with hcmd | hcmd | hcmd <;> rw [hcmd] <;> rfl

end RowTable

end OnnxSim.Ram
