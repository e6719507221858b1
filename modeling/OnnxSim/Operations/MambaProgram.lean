import OnnxSim.Operations.MambaBlock
import OnnxSim.Operations.Program

/-!
# The program of a Mamba block cannot run

The gate `z` is the second half of what `in_proj` computes, but only the region of the first half is a
destination: `COMP` reads `sram_z`, and no instruction before it writes there. So the program stops at
this instruction at the latest, for all dimensions (`MambaBlock.stalls`).
-/

namespace OnnxSim

/-- Some instruction is never issued: not even where the scratchpads hold what the instructions before
it have allocated and all of it is valid. -/
def Stalls (is : List Instruction) : Prop :=
  ∃ pre i post, is = pre ++ i :: post ∧ ∀ (config : SimulationConfig) (c : Core) (t : Tile),
    c.EntriesFrom t pre → c.AllDone t pre → ∀ c', Core.tryIssue config c (Core.prepare t i) ≠ some (some c')

namespace MambaBlock

variable (op : MambaBlock)

/-- What is issued before the gate is read. -/
def beforeGate : List Instruction :=
  op.inProj ++ op.conv1d ++ op.xProj ++ op.dtProj ++ op.ssmUpdate.take 10

/-- `COMP` on the gate. -/
def gate : Instruction := op.vector .COMP op.sramZ op.bi [op.sramZ]

/-- What is issued before the state is loaded. -/
def beforeState : List Instruction := op.inProj ++ op.conv1d ++ op.xProj ++ op.dtProj

def loadState : Instruction := op.movin op.sramSsmSt 2 op.bss

variable {op}

theorem eq_gate {is : List Instruction} (his : op.initializeInstructions = some is) :
    is = op.beforeGate ++ op.gate :: (op.ssmUpdate.drop 11 ++ op.outProj) := by
  unfold initializeInstructions at his
  split at his
  · cases his
  · obtain rfl := Option.some.inj his
    rfl

theorem eq_loadState {is : List Instruction} (his : op.initializeInstructions = some is) :
    is = op.beforeState ++ op.loadState :: (op.ssmUpdate.drop 1 ++ op.outProj) := by
  unfold initializeInstructions at his
  split at his
  · cases his
  · obtain rfl := Option.some.inj his
    rfl

/-! ## Where the regions are -/

theorem bytes_lt (elems : Nat) : op.bytes elems < 2 ^ 32 := Nat.mod_lt _ (by decide)

theorem plus_toNat {addr : AddrType} {size k : Nat} (haddr : addr.toNat ≤ 2 ^ 28 + k * 2 ^ 32)
    (hk : k < 2 ^ 16) (hsize : size < 2 ^ 32) :
    (plus addr size).toNat = addr.toNat + size ∧
      (plus addr size).toNat ≤ 2 ^ 28 + (k + 1) * 2 ^ 32 := by
  have hsum : (plus addr size).toNat = addr.toNat + size := by
    unfold plus
    rw [BitVec.toNat_add, BitVec.toNat_ofNat]
    omega
  exact ⟨hsum, by omega⟩

variable (op)

/-- The regions that `in_proj` to `ssm_update` write follow one another. -/
structure Layout : Prop where
  x : sramX.toNat = 2 ^ 28
  convSt : op.sramConvSt.toNat = sramX.toNat + op.bm
  ssmSt : op.sramSsmSt.toNat = op.sramConvSt.toNat + op.bcs
  wInProj : op.sramWInProj.toNat = op.sramSsmSt.toNat + op.bss
  wConv1d : op.sramWConv1d.toNat = op.sramWInProj.toNat + op.bwInProj
  bConv : (plus op.sramWConv1d op.bwconv).toNat = op.sramWConv1d.toNat + op.bwconv
  wXproj : op.sramWXproj.toNat = op.sramWConv1d.toNat + op.bwConv1d
  wDtProj : op.sramWDtProj.toNat = op.sramWXproj.toNat + op.bwXproj
  bDt : (plus op.sramWDtProj op.bwdt).toNat = op.sramWDtProj.toNat + op.bwdt
  wSsm : op.sramWSsm.toNat = op.sramWDtProj.toNat + op.bwDtProj
  d : (plus op.sramWSsm op.bss).toNat = op.sramWSsm.toNat + op.bss
  wOutProj : op.sramWOutProj.toNat = op.sramWSsm.toNat + op.bwSsm
  xin : op.sramXin.toNat = op.sramWOutProj.toNat + op.bwOutProj
  z : op.sramZ.toNat = op.sramXin.toNat + op.bi
  xact : op.sramXact.toNat = op.sramZ.toNat + op.bi
  dtRaw : op.sramDtRaw.toNat = op.sramXact.toNat + op.bi
  b : op.sramB.toNat = op.sramDtRaw.toNat + op.bdt
  c : op.sramC.toNat = op.sramB.toNat + op.bs
  dt : op.sramDt.toNat = op.sramC.toNat + op.bs
  y : op.sramY.toNat = op.sramDt.toNat + op.bi

theorem layout : op.Layout := by
  have hword : ∀ n, wrap n < 2 ^ 32 := fun n => Nat.mod_lt n (by decide)
  have hx : sramX.toNat ≤ 2 ^ 28 + 0 * 2 ^ 32 := by decide
  have hconvSt := plus_toNat hx (by decide) (op.bytes_lt op.dModel)
  have hssmSt := plus_toNat hconvSt.2 (by decide) (op.bytes_lt (op.dInner * op.dConv))
  have hwInProj := plus_toNat hssmSt.2 (by decide) (op.bytes_lt (op.dInner * op.dState))
  have hwConv1d := plus_toNat hwInProj.2 (by decide) (op.bytes_lt (2 * op.dInner * op.dModel))
  have hbConv := plus_toNat hwConv1d.2 (by decide) (op.bytes_lt (op.dInner * op.dConv))
  have hwXproj := plus_toNat hwConv1d.2 (by decide) (hword (op.bwconv + op.bi))
  have hwDtProj := plus_toNat hwXproj.2 (by decide)
    (op.bytes_lt ((op.dtRank + 2 * op.dState) * op.dInner))
  have hbDt := plus_toNat hwDtProj.2 (by decide) (op.bytes_lt (op.dInner * op.dtRank))
  have hwSsm := plus_toNat hwDtProj.2 (by decide) (hword (op.bwdt + op.bi))
  have hd := plus_toNat hwSsm.2 (by decide) (op.bytes_lt (op.dInner * op.dState))
  have hwOutProj := plus_toNat hwSsm.2 (by decide) (hword (op.bss + op.bi))
  have hxin := plus_toNat hwOutProj.2 (by decide) (op.bytes_lt (op.dModel * op.dInner))
  have hz := plus_toNat hxin.2 (by decide) (op.bytes_lt op.dInner)
  have hxact := plus_toNat hz.2 (by decide) (op.bytes_lt op.dInner)
  have hdtRaw := plus_toNat hxact.2 (by decide) (op.bytes_lt op.dInner)
  have hb := plus_toNat hdtRaw.2 (by decide) (op.bytes_lt op.dtRank)
  have hc := plus_toNat hb.2 (by decide) (op.bytes_lt op.dState)
  have hdt := plus_toNat hc.2 (by decide) (op.bytes_lt op.dState)
  have hy := plus_toNat hdt.2 (by decide) (op.bytes_lt op.dInner)
  exact ⟨rfl, hconvSt.1, hssmSt.1, hwInProj.1, hwConv1d.1, hbConv.1, hwXproj.1, hwDtProj.1, hbDt.1,
    hwSsm.1, hd.1, hwOutProj.1, hxin.1, hz.1, hxact.1, hdtRaw.1, hb.1, hc.1, hdt.1, hy.1⟩

/-- The destinations before the gate is read. -/
theorem allocates_beforeGate {a : AddrType} (h : Allocates op.beforeGate a) :
    a ∈ [sramX, op.sramWInProj, op.sramXin, op.sramConvSt, op.sramWConv1d,
      plus op.sramWConv1d op.bwconv, op.sramXact, op.sramWXproj, op.sramDtRaw, op.sramWDtProj,
      plus op.sramWDtProj op.bwdt, op.sramDt, op.sramSsmSt, op.sramWSsm, plus op.sramWSsm op.bss,
      op.sramY] := by
  obtain ⟨j, hj, -, rfl⟩ := h
  simp only [beforeGate, inProj, conv1d, xProj, dtProj, ssmUpdate, List.take, List.cons_append,
    List.nil_append, List.mem_cons, List.not_mem_nil, or_false] at hj
  rcases hj with rfl | rfl | rfl | rfl | rfl | rfl | rfl | rfl | rfl | rfl | rfl | rfl | rfl | rfl |
    rfl | rfl | rfl | rfl | rfl | rfl | rfl | rfl | rfl | rfl | rfl | rfl | rfl | rfl | rfl | rfl
  all_goals simp [movin, movout, gemm, vector]

namespace Layout

variable {op} (h : op.Layout)
include h

/-- The regions of the loads end before that of the gate starts. -/
theorem loads_le : sramX.toNat ≤ op.sramConvSt.toNat ∧ op.sramConvSt.toNat ≤ op.sramSsmSt.toNat ∧
    op.sramSsmSt.toNat ≤ op.sramWInProj.toNat ∧ op.sramWInProj.toNat ≤ op.sramWConv1d.toNat ∧
    op.sramWConv1d.toNat ≤ op.sramWXproj.toNat ∧ op.sramWXproj.toNat ≤ op.sramWDtProj.toNat ∧
    op.sramWDtProj.toNat ≤ op.sramWSsm.toNat ∧ op.sramWSsm.toNat ≤ op.sramWOutProj.toNat ∧
    op.sramWOutProj.toNat ≤ op.sramXin.toNat :=
  ⟨Nat.le.intro h.convSt.symm, Nat.le.intro h.ssmSt.symm, Nat.le.intro h.wInProj.symm,
    Nat.le.intro h.wConv1d.symm, Nat.le.intro h.wXproj.symm, Nat.le.intro h.wDtProj.symm,
    Nat.le.intro h.wSsm.symm, Nat.le.intro h.wOutProj.symm, Nat.le.intro h.xin.symm⟩

/-- The regions after the gate. -/
theorem results_le : op.sramZ.toNat + op.bi ≤ op.sramXact.toNat ∧
    op.sramXact.toNat ≤ op.sramDtRaw.toNat ∧ op.sramDtRaw.toNat ≤ op.sramB.toNat ∧
    op.sramB.toNat ≤ op.sramC.toNat ∧ op.sramC.toNat ≤ op.sramDt.toNat ∧
    op.sramDt.toNat ≤ op.sramY.toNat :=
  ⟨h.xact.ge, Nat.le.intro h.dtRaw.symm, Nat.le.intro h.b.symm, Nat.le.intro h.c.symm,
    Nat.le.intro h.dt.symm, Nat.le.intro h.y.symm⟩

/-- The biases and `D`, which share a region with what is before them, are not in the place of the gate:
the sum of the two sizes does not wrap, or they are beyond the scratchpad. -/
theorem seconds_ne (hbi : 0 < op.bi) (hlow : op.sramZ.toNat < 2 ^ 29) :
    (plus op.sramWConv1d op.bwconv).toNat < op.sramZ.toNat ∧
      (plus op.sramWDtProj op.bwdt).toNat ≠ op.sramZ.toNat ∧
      (plus op.sramWSsm op.bss).toNat < op.sramZ.toNat := by
  obtain ⟨h1, h2, h3, h4, h5, h6, h7, h8, h9⟩ := h.loads_le
  have hx := h.x
  have hz := h.z
  refine ⟨?_, ?_, ?_⟩
  · have hbwconv : op.bwconv = op.bcs := rfl
    have hsize := h.ssmSt
    have hsum : op.bwConv1d = op.bwconv + op.bi := wrap_of_lt (by omega)
    rw [h.bConv]
    have hend := h.wXproj
    omega
  · have hend := h.wSsm
    rw [h.bDt]
    rcases Nat.lt_or_ge (op.bwdt + op.bi) (2 ^ 32) with hlt | hge
    · have hsum : op.bwDtProj = op.bwdt + op.bi := wrap_of_lt hlt
      omega
    · omega
  · have hsize := h.wInProj
    have hsum : op.bwSsm = op.bss + op.bi := wrap_of_lt (by omega)
    rw [h.d]
    have hend := h.wOutProj
    omega

end Layout

/-- No instruction before the gate is read writes it, where it is in the scratchpad. -/
theorem not_allocates_gate (hbi : 0 < op.bi) (hlow : op.sramZ.toNat < 2 ^ 29) :
    ¬ Allocates op.beforeGate op.sramZ := by
  intro h
  have hmem := op.allocates_beforeGate h
  obtain ⟨hbConv, hbDt, hd⟩ := op.layout.seconds_ne hbi hlow
  have hz : op.sramXin.toNat < op.sramZ.toNat := by
    have hsum := op.layout.z
    omega
  obtain ⟨h1, h2, h3, h4, h5, h6, h7, h8, h9⟩ := op.layout.loads_le
  obtain ⟨h10, h11, h12, h13, h14, h15⟩ := op.layout.results_le
  have hne : ∀ d ∈ [sramX, op.sramWInProj, op.sramXin, op.sramConvSt, op.sramWConv1d,
      plus op.sramWConv1d op.bwconv, op.sramXact, op.sramWXproj, op.sramDtRaw, op.sramWDtProj,
      plus op.sramWDtProj op.bwdt, op.sramDt, op.sramSsmSt, op.sramWSsm, plus op.sramWSsm op.bss,
      op.sramY], d.toNat ≠ op.sramZ.toNat := by
    simp only [List.forall_mem_cons]
    refine ⟨?_, ?_, ?_, ?_, ?_, ?_, ?_, ?_, ?_, ?_, ?_, ?_, ?_, ?_, ?_, ?_, by simp⟩ <;> omega
  exact hne _ hmem rfl

/-- Where the region of an inner vector is empty, the states are loaded into one place. -/
theorem allocates_beforeState (hbi : op.bi = 0) : Allocates op.beforeState op.sramSsmSt := by
  have hbcs : op.bcs = 0 := by
    have hdvd : 2 ^ 32 ∣ op.dInner * op.config.precision := Nat.dvd_of_mod_eq_zero hbi
    refine Nat.mod_eq_zero_of_dvd ?_
    rw [Nat.mul_right_comm]
    exact Dvd.dvd.mul_right hdvd op.dConv
  have hsame : op.sramSsmSt = op.sramConvSt := by
    refine BitVec.eq_of_toNat_eq ?_
    rw [op.layout.ssmSt, hbcs, Nat.add_zero]
  refine ⟨op.movin op.sramConvSt 1 op.bcs, ?_, rfl, hsame.symm⟩
  simp [beforeState, conv1d]

variable {op} {is : List Instruction}

/-- No program of a Mamba block can run. -/
theorem not_runnable (his : op.initializeInstructions = some is) : ¬ Runnable is := by
  intro h
  rcases Nat.eq_zero_or_pos op.bi with hbi | hbi
  · exact (h _ _ _ (eq_loadState his)).fresh rfl (op.allocates_beforeState hbi)
  · have hgate := (h _ _ _ (eq_gate his)).operands (by simp [gate, vector]) rfl op.sramZ
      (by simp [gate, vector])
    refine op.not_allocates_gate hbi (Nat.lt_of_not_le fun hhigh => ?_) hgate.1
    exact Bool.false_ne_true (hgate.2 hhigh)

/-- An instruction of the program is never issued. -/
theorem program_stalls (his : op.initializeInstructions = some is) : Stalls is := by
  rcases Nat.eq_zero_or_pos op.bi with hbi | hbi
  · refine ⟨_, _, _, eq_loadState his, fun config c t _ hdone c' hissue => ?_⟩
    have hagain : Core.tryIssue config c (Core.prepare t op.loadState) = none :=
      Core.tryIssue_load_again rfl (op.allocates_beforeState hbi) hdone
    rw [hagain] at hissue
    cases hissue
  · refine ⟨_, _, _, eq_gate his, fun config c t hentries _ c' hissue => ?_⟩
    have hbad : ACCUM_SPAD_BASE ≤ op.sramZ ∨ ¬ Allocates op.beforeGate op.sramZ := by
      by_cases hhigh : ACCUM_SPAD_BASE ≤ op.sramZ
      · exact .inl hhigh
      · exact .inr (op.not_allocates_gate hbi (Nat.lt_of_not_le hhigh))
    have hwaits : Core.tryIssue config c (Core.prepare t op.gate) = some none :=
      Core.tryIssue_compute_waits (by simp [gate, vector]) rfl List.mem_cons_self rfl hentries hbad
    rw [hwaits] at hissue
    cases hissue

/-- For all dimensions the program of a Mamba block cannot run: it holds an instruction that is never
issued. -/
theorem stalls (op : MambaBlock) :
    (¬ ∃ is, op.initializeInstructions = some is ∧ Runnable is) ∧
      ∀ is, op.initializeInstructions = some is → Stalls is := by
  refine ⟨?_, fun is his => program_stalls his⟩
  rintro ⟨is, his, hrunnable⟩
  exact not_runnable his hrunnable

/-! ## A small block -/

/-- All dimensions are one or two. -/
def smallBlock : MambaBlock where
  id := 0
  inputs := [0, 64, 128, 192, 256, 320, 384, 448, 512, 576, 640, 704]
  outputs := [768, 832, 896]
  config := { numCores := 1, dramChannels := 1, dramReqSize := 32 }
  dModel := 1
  dInner := 2
  dState := 1
  dConv := 2
  dtRank := 1

/-- The gate of the small block is not written before it is read. -/
theorem smallBlock_not_runnable : ¬ ∀ op : MambaBlock, 1 ≤ op.dModel → 1 ≤ op.dInner →
    1 ≤ op.dState → 1 ≤ op.dConv → 1 ≤ op.dtRank →
      ∃ is, op.initializeInstructions = some is ∧ Runnable is := by
  intro hall
  obtain ⟨is, his, hrunnable⟩ := hall smallBlock (by decide) (by decide) (by decide) (by decide)
    (by decide)
  have hgate := (hrunnable _ _ _ (eq_gate his)).operands (by simp [gate, vector]) rfl
    smallBlock.sramZ (by simp [gate, vector])
  have hmem := smallBlock.allocates_beforeGate hgate.1
  exact absurd hmem (by decide)

/-- The program of the small block exists, and stalls. -/
theorem stalls_smallBlock : ∃ is, smallBlock.initializeInstructions = some is ∧ Stalls is :=
  ⟨_, rfl, (stalls smallBlock).2 _ rfl⟩

end MambaBlock

end OnnxSim
