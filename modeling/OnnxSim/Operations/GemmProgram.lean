import OnnxSim.Operations.GemmChunks
import OnnxSim.Operations.Program

/-!
# The programs of a matrix multiplication

The loads, the computes and the stores of a tile take their addresses in the scratchpads from three loop
nests. With the mapping of `gemm_mapping`, and where the tiles of the operands are small enough to stay
apart, the three agree: every program of `initialize_tiles` can run (`GemmWS.programs_run`).
-/

namespace OnnxSim

namespace GemmWS

/-- The tiles of the operands lie between the two bases, and that of the output beyond. -/
structure SmallTiles (op : GemmWS) (mapping : Mapping) : Prop where
  spad : (mapping.tileInLoop.N * mapping.tileInLoop.C + mapping.tileInLoop.M * mapping.tileInLoop.C) *
    op.config.precision < 2 ^ 28
  accum : mapping.tileInLoop.N * mapping.tileInLoop.M * op.config.precision < 2 ^ 28

/-- The program of a tile can run. -/
structure ProgramRuns (op : GemmWS) (mapping : Mapping) (tile : Tile) : Prop where
  movins : ∀ pre i post, tile.instructions = pre ++ i :: post → i.opcode = .MOVIN →
    i.size = i.srcAddrs.length ∧ 1 ≤ i.size ∧ ¬ Allocates pre i.destAddr
  preloads : ∀ pre i post, tile.instructions = pre ++ i :: post → i.opcode = .GEMM_PRELOAD →
    ∀ a ∈ i.srcAddrs, a < ACCUM_SPAD_BASE ∧ ∃ j ∈ pre, j.opcode = .MOVIN ∧ j.destAddr = a
  movouts : ∀ pre i post, tile.instructions = pre ++ i :: post → i.opcode = .MOVOUT →
    ∃ j ∈ pre, j.opcode = .GEMM_PRELOAD ∧ j.destAddr = i.destAddr
  blocks : ∀ i ∈ tile.instructions, i.opcode = .GEMM_PRELOAD →
    ∃ ns ∈ op.nSteps tile mapping, ∃ ms ∈ op.mSteps tile mapping,
      i.destAddr = op.outSpAddr mapping ns ms ∧ ACCUM_SPAD_BASE ≤ i.destAddr
  apart : ∀ ns ∈ op.nSteps tile mapping, ∀ ms ∈ op.mSteps tile mapping,
    ∀ ns' ∈ op.nSteps tile mapping, ∀ ms' ∈ op.mSteps tile mapping,
      op.outSpAddr mapping ns ms = op.outSpAddr mapping ns' ms' → ns = ns' ∧ ms = ms'
  last : ∃ i, tile.instructions.getLast? = some i ∧ i.opcode ≠ .MOVIN
  neverStalls : NeverStalls tile.instructions tile.accum

variable {op : GemmWS} {mapping : Mapping} {layout : GemmLayout} {N C M : Nat} {tile : Tile}

/-! ## The addresses -/

theorem bytes_toNat (op : GemmWS) {elems : Nat} (h : elems * op.config.precision < 2 ^ 32) :
    (op.bytes elems).toNat = elems * op.config.precision := by
  unfold bytes word
  rw [Nat.mod_eq_of_lt h, BitVec.toNat_ofNat]
  exact Nat.mod_eq_of_lt (h.trans (by decide))

theorem spadBase_toNat : SPAD_BASE.toNat = 2 ^ 28 := rfl

theorem accumBase_toNat : ACCUM_SPAD_BASE.toNat = 2 ^ 29 := rfl

namespace SmallTiles

variable (h : op.SmallTiles mapping)
include h

theorem spad_bytes_lt {ms : Nat} (hms : ms < mapping.tileInLoop.M) :
    mapping.tileInLoop.N * mapping.tileInLoop.C * op.config.precision +
      ms * mapping.tileInLoop.C * op.config.precision < 2 ^ 28 := by
  have hle : ms * mapping.tileInLoop.C * op.config.precision ≤
      mapping.tileInLoop.M * mapping.tileInLoop.C * op.config.precision :=
    Nat.mul_le_mul_right _ (Nat.mul_le_mul_right _ (Nat.le_of_lt hms))
  have hsum := h.spad
  rw [Nat.add_mul] at hsum
  omega

omit h in
theorem act_bytes_lt (op : GemmWS) {ns : Nat} (hns : ns < mapping.tileInLoop.N)
    (hC : 0 < mapping.tileInLoop.C) (hprecision : 0 < op.config.precision) :
    ns * mapping.tileInLoop.C * op.config.precision <
      mapping.tileInLoop.N * mapping.tileInLoop.C * op.config.precision :=
  Nat.mul_lt_mul_of_pos_right (Nat.mul_lt_mul_of_pos_right hns hC) hprecision

theorem out_bytes_lt {ns ms : Nat} (hns : ns < mapping.tileInLoop.N)
    (hms : ms < mapping.tileInLoop.M) :
    (ns * mapping.tileInLoop.M + ms) * op.config.precision < 2 ^ 28 := by
  have hrow : (ns + 1) * mapping.tileInLoop.M ≤ mapping.tileInLoop.N * mapping.tileInLoop.M :=
    Nat.mul_le_mul_right _ hns
  rw [Nat.succ_mul] at hrow
  refine Nat.lt_of_le_of_lt (Nat.mul_le_mul_right _ ?_) h.accum
  omega

theorem actSpAddr_toNat {ns : Nat} (hns : ns < mapping.tileInLoop.N) :
    (op.actSpAddr mapping ns 0).toNat =
      2 ^ 28 + ns * mapping.tileInLoop.C * op.config.precision := by
  have hlt : ns * mapping.tileInLoop.C * op.config.precision < 2 ^ 28 := by
    have hle : ns * mapping.tileInLoop.C * op.config.precision ≤
        mapping.tileInLoop.N * mapping.tileInLoop.C * op.config.precision :=
      Nat.mul_le_mul_right _ (Nat.mul_le_mul_right _ (Nat.le_of_lt hns))
    have hsum := h.spad
    rw [Nat.add_mul] at hsum
    omega
  unfold actSpAddr
  rw [Nat.add_zero, BitVec.toNat_add, bytes_toNat op (by omega), spadBase_toNat]
  exact Nat.mod_eq_of_lt (by omega)

theorem weightSpAddr_toNat {ms : Nat} (hms : ms < mapping.tileInLoop.M) :
    (op.weightSpAddr mapping ms 0).toNat =
      2 ^ 28 + (mapping.tileInLoop.N * mapping.tileInLoop.C * op.config.precision +
        ms * mapping.tileInLoop.C * op.config.precision) := by
  have hlt := h.spad_bytes_lt hms
  unfold weightSpAddr
  rw [Nat.add_zero, BitVec.toNat_add, BitVec.toNat_add, bytes_toNat op (by omega),
    bytes_toNat op (by omega), spadBase_toNat, Nat.mod_eq_of_lt (by omega),
    Nat.mod_eq_of_lt (by omega), Nat.add_assoc]

theorem outSpAddr_toNat {ns ms : Nat} (hns : ns < mapping.tileInLoop.N)
    (hms : ms < mapping.tileInLoop.M) :
    (op.outSpAddr mapping ns ms).toNat =
      2 ^ 29 + (ns * mapping.tileInLoop.M + ms) * op.config.precision := by
  have hlt := h.out_bytes_lt hns hms
  unfold outSpAddr
  rw [BitVec.toNat_add, bytes_toNat op (by omega), accumBase_toNat]
  exact Nat.mod_eq_of_lt (by omega)

/-- The bias of a step has the place of its first row. -/
theorem biasMovin_destAddr_toNat {ms : Nat} (hN : 0 < mapping.tileInLoop.N)
    (hms : ms < mapping.tileInLoop.M) :
    (op.biasMovin tile mapping ms).destAddr.toNat = 2 ^ 29 + ms * op.config.precision := by
  have hsame : (op.biasMovin tile mapping ms).destAddr = op.outSpAddr mapping 0 ms := by
    unfold biasMovin outSpAddr
    rw [Nat.zero_mul, Nat.zero_add]
  rw [hsame, h.outSpAddr_toNat hN hms, Nat.zero_mul, Nat.zero_add]

end SmallTiles

/-! ## The loads -/

/-- The destinations of the loads of a step. -/
def loadDests (op : GemmWS) (tile : Tile) (mapping : Mapping) (ms : Nat) : List AddrType :=
  (if !tile.accum && op.hasBias then [(op.biasMovin tile mapping ms).destAddr] else []) ++
    op.weightSpAddr mapping ms 0 ::
      if ms = 0 then (op.nSteps tile mapping).map (op.actSpAddr mapping · 0) else []

theorem destAddr_of_weightMovin {ms : Nat} {i : Instruction}
    (h : op.weightMovin tile mapping ms 0 = some i) :
    i.opcode = .MOVIN ∧ i.destAddr = op.weightSpAddr mapping ms 0 := by
  obtain ⟨addrs, -, h⟩ := Option.bind_eq_some_iff.mp h
  obtain rfl := Option.some.inj h
  exact ⟨rfl, rfl⟩

theorem destAddr_of_activationMovin {ns : Nat} {i : Instruction}
    (h : op.activationMovin tile mapping ns 0 = some i) :
    i.opcode = .MOVIN ∧ i.destAddr = op.actSpAddr mapping ns 0 := by
  obtain ⟨addrs, -, h⟩ := Option.bind_eq_some_iff.mp h
  obtain rfl := Option.some.inj h
  exact ⟨rfl, rfl⟩

theorem destAddr_of_movout {ms ns : Nat} {i : Instruction}
    (h : op.movout tile mapping ms ns = some i) : i.destAddr = op.outSpAddr mapping ns ms := by
  obtain ⟨addrs, -, h⟩ := Option.bind_eq_some_iff.mp h
  obtain rfl := Option.some.inj h
  rfl

namespace Tiling

theorem map_destAddr_loads (h : op.Tiling mapping layout N C M) {ms : Nat} {is : List Instruction}
    (hloads : op.loads tile mapping ms = some is) :
    is.map (·.destAddr) = op.loadDests tile mapping ms := by
  rw [h.loads_eq] at hloads
  obtain ⟨weights, hweights, hloads⟩ := Option.bind_eq_some_iff.mp hloads
  obtain ⟨inputs, hinputs, hloads⟩ := Option.bind_eq_some_iff.mp hloads
  obtain rfl := Option.some.inj hloads
  have hacts : inputs.map (·.destAddr) =
      if ms = 0 then (op.nSteps tile mapping).map (op.actSpAddr mapping · 0) else [] := by
    split at hinputs
    · rename_i hms
      rw [if_pos hms]
      exact Loops.map_eq_of_forall₂ (Loops.forall₂_of_mapM hinputs)
        fun ns _ i hi => (destAddr_of_activationMovin hi).2
    · rename_i hms
      obtain rfl := Option.some.inj hinputs
      rw [if_neg hms]
      rfl
  unfold loadDests
  rw [List.map_append, List.map_cons, (destAddr_of_weightMovin hweights).2, hacts]
  split <;> rfl

theorem nodup_mSteps (h : op.Tiling mapping layout N C M) (tile : Tile) :
    (op.mSteps tile mapping).Nodup := by
  refine List.Nodup.sublist (List.takeWhile_sublist _) ?_
  unfold steps
  refine List.Nodup.map ?_ List.nodup_range
  exact fun a b hab => Nat.eq_of_mul_eq_mul_right h.loopSize_pos hab

theorem nodup_nSteps (h : op.Tiling mapping layout N C M) (tile : Tile) :
    (op.nSteps tile mapping).Nodup := by
  refine List.Nodup.sublist (List.takeWhile_sublist _) ?_
  unfold steps
  refine List.Nodup.map ?_ List.nodup_range
  exact fun a b hab => Nat.eq_of_mul_eq_mul_right h.loopSize_pos hab

theorem mem_loadDests {ms : Nat} {a : AddrType} : a ∈ op.loadDests tile mapping ms ↔
    (tile.accum = false ∧ op.hasBias = true ∧ a = (op.biasMovin tile mapping ms).destAddr) ∨
      a = op.weightSpAddr mapping ms 0 ∨
      ms = 0 ∧ ∃ ns ∈ op.nSteps tile mapping, a = op.actSpAddr mapping ns 0 := by
  unfold loadDests
  rw [List.mem_append, List.mem_cons]
  refine or_congr ?_ (or_congr_right ?_)
  · split <;> simp_all
  · split
    · rename_i hms
      simp [hms, List.mem_map, eq_comm]
    · rename_i hms
      simp [hms]

variable (h : op.Tiling mapping layout N C M) (hsmall : op.SmallTiles mapping)
  (hprecision : 0 < op.config.precision)
include h hsmall hprecision

theorem weightSpAddr_ne_act {ms ns : Nat} (hms : ms ∈ op.mSteps tile mapping)
    (hns : ns ∈ op.nSteps tile mapping) :
    op.weightSpAddr mapping ms 0 ≠ op.actSpAddr mapping ns 0 := by
  intro heq
  have hnat := congrArg BitVec.toNat heq
  have hlt := (h.mem_nSteps.mp hns).1
  rw [hsmall.weightSpAddr_toNat (h.mem_mSteps.mp hms).1, hsmall.actSpAddr_toNat hlt] at hnat
  have hact := SmallTiles.act_bytes_lt op hlt h.cut.cutC.inner_pos hprecision
  omega

theorem actSpAddr_inj {ns ns' : Nat} (hns : ns ∈ op.nSteps tile mapping)
    (hns' : ns' ∈ op.nSteps tile mapping)
    (heq : op.actSpAddr mapping ns 0 = op.actSpAddr mapping ns' 0) : ns = ns' := by
  have hnat := congrArg BitVec.toNat heq
  rw [hsmall.actSpAddr_toNat (h.mem_nSteps.mp hns).1,
    hsmall.actSpAddr_toNat (h.mem_nSteps.mp hns').1, Nat.add_right_inj] at hnat
  exact Nat.eq_of_mul_eq_mul_right h.cut.cutC.inner_pos
    (Nat.eq_of_mul_eq_mul_right hprecision hnat)

theorem weightSpAddr_inj {ms ms' : Nat} (hms : ms ∈ op.mSteps tile mapping)
    (hms' : ms' ∈ op.mSteps tile mapping)
    (heq : op.weightSpAddr mapping ms 0 = op.weightSpAddr mapping ms' 0) : ms = ms' := by
  have hnat := congrArg BitVec.toNat heq
  rw [hsmall.weightSpAddr_toNat (h.mem_mSteps.mp hms).1,
    hsmall.weightSpAddr_toNat (h.mem_mSteps.mp hms').1, Nat.add_right_inj, Nat.add_right_inj] at hnat
  exact Nat.eq_of_mul_eq_mul_right h.cut.cutC.inner_pos
    (Nat.eq_of_mul_eq_mul_right hprecision hnat)

theorem biasMovin_inj {ms ms' : Nat} (hms : ms ∈ op.mSteps tile mapping)
    (hms' : ms' ∈ op.mSteps tile mapping)
    (heq : (op.biasMovin tile mapping ms).destAddr = (op.biasMovin tile mapping ms').destAddr) :
    ms = ms' := by
  have hnat := congrArg BitVec.toNat heq
  rw [hsmall.biasMovin_destAddr_toNat h.cut.cutN.inner_pos (h.mem_mSteps.mp hms).1,
    hsmall.biasMovin_destAddr_toNat h.cut.cutN.inner_pos (h.mem_mSteps.mp hms').1,
    Nat.add_right_inj] at hnat
  exact Nat.eq_of_mul_eq_mul_right hprecision hnat

/-- The blocks of the output have addresses of their own. -/
theorem outSpAddr_inj {ns ms ns' ms' : Nat} (hns : ns ∈ op.nSteps tile mapping)
    (hms : ms ∈ op.mSteps tile mapping) (hns' : ns' ∈ op.nSteps tile mapping)
    (hms' : ms' ∈ op.mSteps tile mapping)
    (heq : op.outSpAddr mapping ns ms = op.outSpAddr mapping ns' ms') : ns = ns' ∧ ms = ms' := by
  have hnat := congrArg BitVec.toNat heq
  have hlt := (h.mem_mSteps.mp hms).1
  have hlt' := (h.mem_mSteps.mp hms').1
  rw [hsmall.outSpAddr_toNat (h.mem_nSteps.mp hns).1 hlt,
    hsmall.outSpAddr_toNat (h.mem_nSteps.mp hns').1 hlt', Nat.add_right_inj] at hnat
  have hindex := Nat.eq_of_mul_eq_mul_right hprecision hnat
  have hdiv := congrArg (· / mapping.tileInLoop.M) hindex
  have hmod := congrArg (· % mapping.tileInLoop.M) hindex
  simp only [Nat.mul_add_mod', Nat.mod_eq_of_lt hlt, Nat.mod_eq_of_lt hlt'] at hmod
  simp only [Nat.mul_comm _ mapping.tileInLoop.M, Nat.mul_add_div (Nat.zero_lt_of_lt hlt),
    Nat.div_eq_of_lt hlt, Nat.div_eq_of_lt hlt', Nat.add_zero] at hdiv
  exact ⟨hdiv, hmod⟩

omit hprecision in
theorem accum_le_outSpAddr {ns ms : Nat} (hns : ns ∈ op.nSteps tile mapping)
    (hms : ms ∈ op.mSteps tile mapping) : ACCUM_SPAD_BASE ≤ op.outSpAddr mapping ns ms := by
  rw [BitVec.le_def, hsmall.outSpAddr_toNat (h.mem_nSteps.mp hns).1 (h.mem_mSteps.mp hms).1,
    accumBase_toNat]
  exact Nat.le_add_right _ _

omit hprecision in
theorem weightSpAddr_lt {ms : Nat} (hms : ms ∈ op.mSteps tile mapping) :
    op.weightSpAddr mapping ms 0 < ACCUM_SPAD_BASE := by
  have hlt := hsmall.spad_bytes_lt (h.mem_mSteps.mp hms).1
  rw [BitVec.lt_def, hsmall.weightSpAddr_toNat (h.mem_mSteps.mp hms).1, accumBase_toNat]
  omega

theorem actSpAddr_lt {ns : Nat} (hns : ns ∈ op.nSteps tile mapping) :
    op.actSpAddr mapping ns 0 < ACCUM_SPAD_BASE := by
  have hlt := (h.mem_nSteps.mp hns).1
  have hact := SmallTiles.act_bytes_lt op hlt h.cut.cutC.inner_pos hprecision
  have hsum := hsmall.spad
  rw [Nat.add_mul] at hsum
  rw [BitVec.lt_def, hsmall.actSpAddr_toNat hlt, accumBase_toNat]
  omega

omit hprecision in
theorem accum_le_bias {ms : Nat} (hms : ms ∈ op.mSteps tile mapping) :
    ACCUM_SPAD_BASE ≤ (op.biasMovin tile mapping ms).destAddr := by
  rw [BitVec.le_def, hsmall.biasMovin_destAddr_toNat h.cut.cutN.inner_pos (h.mem_mSteps.mp hms).1,
    accumBase_toNat]
  exact Nat.le_add_right _ _

/-- The destinations of the loads are all different. -/
theorem nodup_loadDests (tile : Tile) :
    ((op.mSteps tile mapping).flatMap (op.loadDests tile mapping)).Nodup := by
  rw [List.nodup_flatMap]
  constructor
  · intro ms hms
    have hweight := h.weightSpAddr_lt hsmall hms
    have hbias := h.accum_le_bias hsmall hms
    unfold loadDests
    refine List.nodup_append.mpr ⟨by split <;> simp, ?_, ?_⟩
    · split
      · refine List.nodup_cons.mpr ⟨?_, (h.nodup_nSteps tile).map_on ?_⟩
        · intro hmem
          obtain ⟨ns, hns, heq⟩ := List.mem_map.mp hmem
          exact h.weightSpAddr_ne_act hsmall hprecision hms hns heq.symm
        · exact fun ns hns ns' hns' => h.actSpAddr_inj hsmall hprecision hns hns'
      · simp
    · intro a ha b hb hab
      subst hab
      have hhigh : ACCUM_SPAD_BASE ≤ a := by
        split at ha
        · rw [List.mem_singleton.mp ha]
          exact hbias
        · cases ha
      have hlow : a < ACCUM_SPAD_BASE := by
        rcases List.mem_cons.mp hb with rfl | hb
        · exact hweight
        · split at hb
          · obtain ⟨ns, hns, rfl⟩ := List.mem_map.mp hb
            exact h.actSpAddr_lt hsmall hprecision hns
          · cases hb
      exact BitVec.not_lt.mpr hhigh hlow
  · refine (h.nodup_mSteps tile).imp_of_mem fun {ms ms'} hms hms' hne a ha ha' => ?_
    have hbias := h.accum_le_bias hsmall hms
    have hbias' := h.accum_le_bias hsmall hms'
    have hweight := h.weightSpAddr_lt hsmall hms
    have hweight' := h.weightSpAddr_lt hsmall hms'
    rcases mem_loadDests.mp ha with ⟨-, -, rfl⟩ | rfl | ⟨hzero, ns, hns, rfl⟩
    · rcases mem_loadDests.mp ha' with ⟨-, -, heq⟩ | heq | ⟨-, ns, hns, heq⟩
      · exact hne (h.biasMovin_inj hsmall hprecision hms hms' heq)
      · exact BitVec.not_lt.mpr hbias (heq ▸ hweight')
      · exact BitVec.not_lt.mpr hbias (heq ▸ h.actSpAddr_lt hsmall hprecision hns)
    · rcases mem_loadDests.mp ha' with ⟨-, -, heq⟩ | heq | ⟨-, ns, hns, heq⟩
      · exact BitVec.not_lt.mpr hbias' (heq ▸ hweight)
      · exact hne (h.weightSpAddr_inj hsmall hprecision hms hms' heq)
      · exact h.weightSpAddr_ne_act hsmall hprecision hms hns heq
    · rcases mem_loadDests.mp ha' with ⟨-, -, heq⟩ | heq | ⟨hzero', -⟩
      · exact BitVec.not_lt.mpr hbias' (heq ▸ h.actSpAddr_lt hsmall hprecision hns)
      · exact h.weightSpAddr_ne_act hsmall hprecision hms' hns heq.symm
      · exact hne (hzero.trans hzero'.symm)

end Tiling

/-! ## The sections -/

theorem one_le_sampled {rows cols step : Nat} {f : Nat × Nat → Option AddrType}
    {addrs : List AddrType} (hstep : 0 < step) (hrows : 0 < rows) (hcols : 0 < cols)
    (h : ((List.range rows).flatMap fun n => (steps cols step).map fun c => (n, c)).mapM f =
      some addrs) (base : AddrType) : 1 ≤ (addrSet (addrs.map (base + ·))).length := by
  obtain ⟨a, ha⟩ := (exists_samples_iff hstep).mp ⟨addrs, h⟩ 0 hrows 0 hcols (Nat.dvd_zero step)
  have hmem : a ∈ addrs :=
    (Loops.mem_iff_of_mapM h).mpr ⟨(0, 0), (mem_samples hstep).mpr ⟨hrows, hcols, Nat.dvd_zero _⟩, ha⟩
  exact List.length_pos_of_mem (mem_addrSet.mpr (List.mem_map.mpr ⟨a, hmem, rfl⟩))

namespace Tiling

variable (h : op.Tiling mapping layout N C M)
include h

theorem cInLoop_pos (htile : InLoops mapping tile) : 0 < cInLoop tile mapping 0 := by
  have hlt := h.cut.cutC.start_lt _ htile.C_lt
  have hpos := h.cut.cutC.inner_pos
  rw [h.cInLoop_eq]
  unfold cOffset
  omega

theorem mLoop_pos {ms : Nat} (hms : ms ∈ op.mSteps tile mapping) : 0 < op.mLoop tile mapping ms := by
  have hlt := (h.mem_mSteps.mp hms).2.2
  have hpos := h.loopSize_pos
  rw [h.mLoop_eq]
  omega

theorem nLoop_pos {ns : Nat} (hns : ns ∈ op.nSteps tile mapping) : 0 < op.nLoop tile mapping ns := by
  have hlt := (h.mem_nSteps.mp hns).2.2
  have hpos := h.loopSize_pos
  rw [h.nLoop_eq]
  omega

theorem zero_mem_nSteps (htile : InLoops mapping tile) : 0 ∈ op.nSteps tile mapping :=
  h.mem_nSteps.mpr ⟨h.cut.cutN.inner_pos, Nat.dvd_zero _, h.cut.cutN.start_lt _ htile.batch_lt⟩

/-- The number of a load's chunks is that of its addresses, and not zero. -/
theorem size_of_movin (htile : InLoops mapping tile) {is : List Instruction}
    (his : op.initializeInstructions tile mapping = some is) {i : Instruction} (hi : i ∈ is)
    (hopcode : i.opcode = .MOVIN) : i.size = i.srcAddrs.length ∧ 1 ≤ i.size := by
  obtain ⟨ms, hms, ⟨-, -, rfl⟩ | hweight | ⟨-, ns, hns, hact⟩⟩ := (h.mem_movins his).mp ⟨hi, hopcode⟩
  · have hpos := h.mLoop_pos hms
    have hlt := (h.mem_mSteps.mp hms).2.2
    unfold biasMovin
    simp only [List.length_map]
    refine ⟨trivial, List.length_pos_of_mem (a := mOffset tile mapping ms + 0) ?_⟩
    refine List.mem_filter.mpr ⟨List.mem_map.mpr ⟨0, ?_, rfl⟩, ?_⟩
    · exact (mem_steps h.elemsPerAccess_pos).mpr ⟨hpos, Nat.dvd_zero _⟩
    · rw [h.cut.totalM]
      simpa using hlt
  · obtain ⟨addrs, haddrs, hweight⟩ := Option.bind_eq_some_iff.mp hweight
    obtain rfl := Option.some.inj hweight
    exact ⟨rfl, one_le_sampled h.elemsPerAccess_pos (h.mLoop_pos hms) (h.cInLoop_pos htile) haddrs _⟩
  · obtain ⟨addrs, haddrs, hact⟩ := Option.bind_eq_some_iff.mp hact
    obtain rfl := Option.some.inj hact
    exact ⟨rfl, one_le_sampled h.elemsPerAccess_pos (h.nLoop_pos hns) (h.cInLoop_pos htile) haddrs _⟩

/-- The computes of a tile. -/
theorem mem_preloads {is : List Instruction}
    (his : op.initializeInstructions tile mapping = some is) {i : Instruction} (hi : i ∈ is)
    (hopcode : i.opcode = .GEMM_PRELOAD) :
    ∃ ms ∈ op.mSteps tile mapping, ∃ ns ∈ op.nSteps tile mapping,
      i.destAddr = op.outSpAddr mapping ns ms ∧
        i.srcAddrs = [op.actSpAddr mapping ns 0, op.weightSpAddr mapping ms 0] := by
  have hin : i ∈ is.filter (·.opcode = .GEMM_PRELOAD) := List.mem_filter.mpr ⟨hi, by simp [hopcode]⟩
  rw [(h.filter_sections his).1] at hin
  obtain ⟨ms, hms, hi⟩ := List.mem_flatMap.mp hin
  unfold computes at hi
  rw [h.cSteps_eq, List.flatMap_singleton] at hi
  obtain ⟨ns, hns, hi⟩ := List.mem_flatMap.mp hi
  obtain ⟨c, -, rfl⟩ := List.mem_map.mp hi
  exact ⟨ms, hms, ns, hns, rfl, rfl⟩

/-- Each block of the output is computed. -/
theorem exists_preload (htile : InLoops mapping tile) {is : List Instruction}
    (his : op.initializeInstructions tile mapping = some is) {ms ns : Nat}
    (hms : ms ∈ op.mSteps tile mapping) (hns : ns ∈ op.nSteps tile mapping) :
    ∃ j ∈ is, j.opcode = .GEMM_PRELOAD ∧ j.destAddr = op.outSpAddr mapping ns ms := by
  have hzero : 0 ∈ steps (cInLoop tile mapping 0) op.loopSize :=
    (mem_steps h.loopSize_pos).mpr ⟨h.cInLoop_pos htile, Nat.dvd_zero _⟩
  obtain ⟨j, hj⟩ : ∃ j, j ∈ op.computes tile mapping ms ∧
      j.destAddr = op.outSpAddr mapping ns ms := by
    unfold computes
    rw [h.cSteps_eq, List.flatMap_singleton]
    exact ⟨_, List.mem_flatMap.mpr ⟨ns, hns, List.mem_map.mpr ⟨0, hzero, rfl⟩⟩, rfl⟩
  have hin : j ∈ is.filter (·.opcode = .GEMM_PRELOAD) := by
    rw [(h.filter_sections his).1]
    exact List.mem_flatMap.mpr ⟨ms, hms, hj.1⟩
  exact ⟨j, (List.mem_filter.mp hin).1, opcode_of_computes hj.1, hj.2⟩

/-- The opcodes in the order of the sections. -/
theorem opcode_sections {is : List Instruction}
    (his : op.initializeInstructions tile mapping = some is) :
    ∃ loads computes stores, is = loads ++ computes ++ stores ∧
      loads.map (·.destAddr) = (op.mSteps tile mapping).flatMap (op.loadDests tile mapping) ∧
      (∀ i ∈ loads, i.opcode = .MOVIN) ∧ (∀ i ∈ computes, i.opcode = .GEMM_PRELOAD) ∧
        ∀ i ∈ stores, i.opcode = .MOVOUT := by
  obtain ⟨loads, stores, hloads, hstores, rfl⟩ := (h.made his).sections
  refine ⟨loads.flatten, _, stores, rfl, ?_, ?_, ?_, ?_⟩
  · rw [List.map_flatten, Loops.map_eq_of_forall₂ (Loops.forall₂_of_mapM hloads)
      fun ms _ is hms => h.map_destAddr_loads hms]
    rfl
  · intro i hi
    obtain ⟨is, his, hi⟩ := List.mem_flatten.mp hi
    obtain ⟨ms, -, hms⟩ := Loops.exists_of_mem hloads his
    exact h.opcode_of_loads hms hi
  · intro i hi
    obtain ⟨ms, -, hi⟩ := List.mem_flatMap.mp hi
    exact opcode_of_computes hi
  · intro i hi
    obtain ⟨p, -, hp⟩ := Loops.exists_of_mem hstores hi
    exact opcode_of_movout hp

/-- The loads come before what is not a load. -/
theorem load_mem_pre {is pre post : List Instruction} {i : Instruction}
    (his : op.initializeInstructions tile mapping = some is) (hsplit : is = pre ++ i :: post)
    (hi : i.opcode ≠ .MOVIN) {j : Instruction} (hj : j ∈ is) (hopcode : j.opcode = .MOVIN) :
    j ∈ pre := by
  obtain ⟨loads, computes, stores, rfl, -, hloads, hcomputes, hstores⟩ := h.opcode_sections his
  rw [List.append_assoc] at hsplit hj
  refine mem_pre_of_not_mem hsplit (fun hmem => hi (hloads i hmem)) ?_
  rcases List.mem_append.mp hj with hj | hj
  · exact hj
  · rcases List.mem_append.mp hj with hj | hj
    · rw [hcomputes j hj] at hopcode
      cases hopcode
    · rw [hstores j hj] at hopcode
      cases hopcode

/-- The computes come before the stores. -/
theorem preload_mem_pre {is pre post : List Instruction} {i : Instruction}
    (his : op.initializeInstructions tile mapping = some is) (hsplit : is = pre ++ i :: post)
    (hi : i.opcode = .MOVOUT) {j : Instruction} (hj : j ∈ is) (hopcode : j.opcode = .GEMM_PRELOAD) :
    j ∈ pre := by
  obtain ⟨loads, computes, stores, rfl, -, hloads, hcomputes, hstores⟩ := h.opcode_sections his
  refine mem_pre_of_not_mem hsplit (fun hmem => ?_) ?_
  · rcases List.mem_append.mp hmem with hmem | hmem
    · rw [hloads i hmem] at hi
      cases hi
    · rw [hcomputes i hmem] at hi
      cases hi
  · rcases List.mem_append.mp hj with hj | hj
    · exact hj
    · rw [hstores j hj] at hopcode
      cases hopcode

theorem opcode_cases {is : List Instruction}
    (his : op.initializeInstructions tile mapping = some is) {i : Instruction} (hi : i ∈ is) :
    i.opcode = .MOVIN ∨ i.opcode = .GEMM_PRELOAD ∨ i.opcode = .MOVOUT := by
  obtain ⟨loads, computes, stores, rfl, -, hloads, hcomputes, hstores⟩ := h.opcode_sections his
  rcases List.mem_append.mp hi with hi | hi
  · rcases List.mem_append.mp hi with hi | hi
    · exact .inl (hloads i hi)
    · exact .inr (.inl (hcomputes i hi))
  · exact .inr (.inr (hstores i hi))

/-- The last instruction is no load. -/
theorem getLast_opcode (htile : InLoops mapping tile) {is : List Instruction}
    (his : op.initializeInstructions tile mapping = some is) :
    ∃ i, is.getLast? = some i ∧ i.opcode ≠ .MOVIN := by
  obtain ⟨j, hj, hpreload, -⟩ :=
    h.exists_preload htile his (h.zero_mem_mSteps htile) (h.zero_mem_nSteps htile)
  obtain ⟨i, hi⟩ : ∃ i, is.getLast? = some i :=
    ⟨_, List.getLast?_eq_some_getLast (List.ne_nil_of_mem hj)⟩
  refine ⟨i, hi, fun hmovin => ?_⟩
  obtain ⟨pre, hsplit⟩ := List.getLast?_eq_some_iff.mp hi
  -- the computes would have to come after the last instruction
  obtain ⟨loads, computes, stores, rfl, -, hloads, hcomputes, hstores⟩ := h.opcode_sections his
  have hnot : i ∉ computes ++ stores := by
    intro hmem
    rcases List.mem_append.mp hmem with hmem | hmem
    · rw [hcomputes i hmem] at hmovin
      cases hmovin
    · rw [hstores i hmem] at hmovin
      cases hmovin
  rw [List.append_assoc] at hi hj
  have hnil : computes ++ stores = [] := by
    by_contra hne
    rw [List.getLast?_append_of_ne_nil _ hne] at hi
    exact hnot (List.mem_of_getLast? hi)
  rw [hnil, List.append_nil] at hj
  rw [hloads j hj] at hpreload
  cases hpreload

/-- The program of a tile can run. -/
theorem programRuns (htile : InLoops mapping tile) (hsmall : op.SmallTiles mapping)
    (hprecision : 0 < op.config.precision)
    (his : op.initializeInstructions tile mapping = some tile.instructions) :
    op.ProgramRuns mapping tile := by
  have hmovins : ∀ pre i post, tile.instructions = pre ++ i :: post → i.opcode = .MOVIN →
      i.size = i.srcAddrs.length ∧ 1 ≤ i.size ∧ ¬ Allocates pre i.destAddr := by
    intro pre i post hsplit hopcode
    have hi : i ∈ tile.instructions := by simp [hsplit]
    obtain ⟨hsize, hpos⟩ := h.size_of_movin htile his hi hopcode
    refine ⟨hsize, hpos, ?_⟩
    obtain ⟨loads, computes, stores, heq, hdests, hloads, hcomputes, hstores⟩ := h.opcode_sections his
    rw [heq, List.append_assoc] at hsplit
    obtain ⟨post', rfl⟩ : ∃ post', loads = pre ++ i :: post' := by
      refine eq_append_of_not_mem hsplit fun hmem => ?_
      rcases List.mem_append.mp hmem with hmem | hmem
      · rw [hcomputes i hmem] at hopcode
        cases hopcode
      · rw [hstores i hmem] at hopcode
        cases hopcode
    have hnodup := h.nodup_loadDests hsmall hprecision tile
    rw [← hdests, List.map_append, List.map_cons] at hnodup
    rintro ⟨j, hj, -, hsame⟩
    refine (List.nodup_append.mp hnodup).2.2 _ (List.mem_map.mpr ⟨j, hj, rfl⟩) _ ?_ hsame
    exact List.mem_cons_self
  have hpreloads : ∀ pre i post, tile.instructions = pre ++ i :: post → i.opcode = .GEMM_PRELOAD →
      ∀ a ∈ i.srcAddrs, a < ACCUM_SPAD_BASE ∧ ∃ j ∈ pre, j.opcode = .MOVIN ∧ j.destAddr = a := by
    intro pre i post hsplit hopcode a ha
    have hi : i ∈ tile.instructions := by simp [hsplit]
    have hnot : i.opcode ≠ .MOVIN := by simp [hopcode]
    obtain ⟨ms, hms, ns, hns, -, hsrc⟩ := h.mem_preloads his hi hopcode
    rw [hsrc] at ha
    rcases List.mem_cons.mp ha with rfl | ha
    · -- the activations are loaded with the first step of `Ms`
      have hzero := h.zero_mem_mSteps htile
      obtain ⟨is, hload⟩ : ∃ is, op.loads tile mapping 0 = some is := by
        obtain ⟨loads, stores, hloads, -, -⟩ := (h.made his).sections
        exact Loops.exists_mapM_iff.mp ⟨loads, hloads⟩ 0 hzero
      obtain ⟨j, hj⟩ := (h.exists_loads_iff 0).mp ⟨is, hload⟩ rfl ns hns
      obtain ⟨hmem, hmovin⟩ := (h.mem_movins his).mpr ⟨0, hzero, .inr (.inr ⟨rfl, ns, hns, hj⟩)⟩
      exact ⟨h.actSpAddr_lt hsmall hprecision hns, j, h.load_mem_pre his hsplit hnot hmem hmovin,
        hmovin, (destAddr_of_activationMovin hj).2⟩
    · obtain rfl := List.mem_singleton.mp ha
      obtain ⟨j, hj⟩ : ∃ j, op.weightMovin tile mapping ms 0 = some j := h.exists_weightMovin ms 0
      obtain ⟨hmem, hmovin⟩ := (h.mem_movins his).mpr ⟨ms, hms, .inr (.inl hj)⟩
      exact ⟨h.weightSpAddr_lt hsmall hms, j, h.load_mem_pre his hsplit hnot hmem hmovin, hmovin,
        (destAddr_of_weightMovin hj).2⟩
  have hmovouts : ∀ pre i post, tile.instructions = pre ++ i :: post → i.opcode = .MOVOUT →
      ∃ j ∈ pre, j.opcode = .GEMM_PRELOAD ∧ j.destAddr = i.destAddr := by
    intro pre i post hsplit hopcode
    have hi : i ∈ tile.instructions.filter (·.opcode = .MOVOUT) :=
      List.mem_filter.mpr ⟨by simp [hsplit], by simp [hopcode]⟩
    obtain ⟨p, hp, hmovout⟩ := Loops.exists_of_forall₂_right (h.filter_sections his).2 hi
    obtain ⟨-, hms, hns⟩ := (h.mem_storeSteps htile).mp hp
    obtain ⟨j, hj, hpreload, hdest⟩ := h.exists_preload htile his hms hns
    exact ⟨j, h.preload_mem_pre his hsplit hopcode hj hpreload, hpreload,
      hdest.trans (destAddr_of_movout hmovout).symm⟩
  refine ⟨hmovins, hpreloads, hmovouts, ?_, ?_, h.getLast_opcode htile his, ?_⟩
  · intro i hi hopcode
    obtain ⟨ms, hms, ns, hns, hdest, -⟩ := h.mem_preloads his hi hopcode
    exact ⟨ns, hns, ms, hms, hdest, hdest ▸ h.accum_le_outSpAddr hsmall hns hms⟩
  · exact fun ns hns ms hms ns' hns' ms' hms' =>
      h.outSpAddr_inj hsmall hprecision hns hms hns' hms'
  · refine Runnable.neverStalls ?_ ?_
    · intro pre i post hsplit
      refine ⟨fun hopcode => (hmovins pre i post hsplit hopcode).2.2, fun hstore => ?_,
        fun hload hstore a ha => ?_⟩
      · rcases h.opcode_cases his (i := i) (by simp [hsplit]) with hopcode | hopcode | hopcode
        · rw [hopcode] at hstore
          cases hstore
        · rw [hopcode] at hstore
          cases hstore
        · obtain ⟨j, hj, hpreload, hdest⟩ := hmovouts pre i post hsplit hopcode
          exact ⟨j, hj, by rw [hpreload]; rfl, hdest⟩
      · rcases h.opcode_cases his (i := i) (by simp [hsplit]) with hopcode | hopcode | hopcode
        · exact absurd hopcode hload
        · obtain ⟨hlow, j, hj, hmovin, hdest⟩ := hpreloads pre i post hsplit hopcode a ha
          exact ⟨⟨j, hj, by rw [hmovin]; rfl, hdest⟩, fun hhigh => absurd hlow (BitVec.not_lt.mpr hhigh)⟩
        · rw [hopcode] at hstore
          cases hstore
    · intro haccum i hi hopcode
      have hlow : i.destAddr < ACCUM_SPAD_BASE := by
        obtain ⟨ms, hms, ⟨hacc, -⟩ | hweight | ⟨-, ns, hns, hact⟩⟩ :=
          (h.mem_movins his).mp ⟨hi, hopcode⟩
        · rw [haccum] at hacc
          cases hacc
        · rw [(destAddr_of_weightMovin hweight).2]
          exact h.weightSpAddr_lt hsmall hms
        · rw [(destAddr_of_activationMovin hact).2]
          exact h.actSpAddr_lt hsmall hprecision hns
      exact decide_eq_false (BitVec.not_le.mpr hlow)

end Tiling

/-- With the mapping of `gemm_mapping` and small tiles, the program of every tile of a multiplication
can run. -/
theorem programs_run (op : GemmWS) (layout : GemmLayout) (N C M : Nat)
    (hop : op.Multiplies layout N C M) (hN : 0 < N) (hC : 0 < C) (hM : 0 < M)
    (haccess : op.config.precision ≤ op.config.dramReqSize) {mapping : Mapping}
    (hmapping : gemmMapping op.config (op.key layout.ndim layout.batchSize) = some mapping)
    (hsmall : op.SmallTiles mapping) {tiles : List Tile}
    (htiles : op.initializeTiles mapping = some tiles) :
    ∀ tile ∈ tiles, op.ProgramRuns mapping tile := by
  rw [hop.key_eq] at hmapping
  obtain ⟨hsquare, hdim, hprecision⟩ := gemmMapping_asserts hmapping
  obtain ⟨mapping', hmapping', hcut⟩ : ∃ mapping, gemmMapping op.config
      { N := N, C := C, M := M, targetCore := op.targetCore } = some mapping ∧
        Cut op.loopSize N C M mapping :=
    gemmMapping_cut hsquare hdim hprecision hN hC hM
  obtain rfl := Option.some.inj (hmapping'.symm.trans hmapping)
  have h : op.Tiling mapping' layout N C M :=
    ⟨hop, hcut, hdim, Nat.div_pos haccess hprecision, hN, hC, hM⟩
  intro tile htile
  obtain ⟨hin, his⟩ := h.inLoops_of_initializeTiles htiles tile htile
  exact h.programRuns hin hsmall hprecision his

/-- The programs of a multiplication of two tiles can run. -/
theorem programs_run_oddRows : ∃ mapping tiles,
    gemmMapping oddRows.config (oddRows.key 0 1) = some mapping ∧
      oddRows.initializeTiles mapping = some tiles ∧ tiles ≠ [] ∧
        ∀ tile ∈ tiles, oddRows.ProgramRuns mapping tile := by
  let mapping : Mapping := {
    totalLoop := { N := 2, C := 3, M := 1 }
    tileOutLoop := { N := 1, C := 2, M := 1 }
    tileInLoop := { N := 2, C := 2, M := 2 } }
  have hmapping : gemmMapping oddRows.config (oddRows.key 0 1) = some mapping := by decide
  obtain ⟨tiles, htiles⟩ : ∃ tiles, oddRows.initializeTiles mapping = some tiles :=
    Option.isSome_iff_exists.mp (by decide +kernel)
  refine ⟨mapping, tiles, hmapping, htiles, ?_, ?_⟩
  · rintro rfl
    exact absurd htiles (by decide +kernel)
  · exact programs_run oddRows .plain 2 3 1 oddRows_multiplies (by decide) (by decide) (by decide)
      (by decide) hmapping ⟨by decide, by decide⟩ htiles

end GemmWS

end OnnxSim
