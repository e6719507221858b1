import OnnxSim.Lib.Chunks
import OnnxSim.Operations.Access
import OnnxSim.Operations.GemmCover

/-!
# The chunks that a matrix multiplication loads and stores

The MOVINs and MOVOUTs of `GemmWS` sample each row of a tile's block in steps of `elems_per_access`
from the start of the row's part, and `make_address` aligns the samples. A row that does not start at a
chunk can end in a chunk that no sample is in (`GemmWS.chunks_touched_iff`).
-/

namespace OnnxSim

namespace GemmWS

variable {op : GemmWS} {mapping : Mapping} {layout : GemmLayout} {N C M : Nat} {tile : Tile}

/-- The addresses of the samples of a matrix of `Rows` x `Cols`. -/
theorem mem_sampled {node : Node} {rows cols step first start Rows Cols : Nat} (hstep : 0 < step)
    {addrs : List AddrType}
    (h : ((List.range rows).flatMap fun n => (steps cols step).map fun c => (n, c)).mapM
      (fun p => node.makeAddress [first + p.1, start + p.2] [Rows, Cols]) = some addrs)
    {base a : AddrType} :
    a ∈ addrSet (addrs.map (base + ·)) ↔ ∃ n < rows, ∃ c < cols, step ∣ c ∧
      a = base + node.elementAddress ((first + n) * Cols + (start + c)) := by
  rw [mem_addrSet, List.mem_map]
  constructor
  · rintro ⟨addr, haddr, rfl⟩
    obtain ⟨p, hp, hmake⟩ := Loops.exists_of_mem h haddr
    obtain ⟨hn, hc, hdvd⟩ := (mem_samples hstep).mp hp
    obtain ⟨-, -, rfl⟩ := Node.makeAddress_two.mp hmake
    exact ⟨p.1, hn, p.2, hc, hdvd, rfl⟩
  · rintro ⟨n, hn, c, hc, hdvd, rfl⟩
    obtain ⟨addr, hmake⟩ := (exists_samples_iff hstep).mp ⟨addrs, h⟩ n hn c hc hdvd
    refine ⟨addr, (Loops.mem_iff_of_mapM h).mpr
      ⟨(n, c), (mem_samples hstep).mpr ⟨hn, hc, hdvd⟩, hmake⟩, ?_⟩
    rw [(Node.makeAddress_two.mp hmake).2.2]

namespace Tiling

theorem activationMovin_spec (h : op.Tiling mapping .plain N C M) {ns : Nat} {i : Instruction}
    (hi : op.activationMovin tile mapping ns 0 = some i) :
    i.opcode = .MOVIN ∧ i.operandId = INPUT_OPERAND ∧ ∀ a, a ∈ i.srcAddrs ↔
      ∃ n < op.nLoop tile mapping ns, ∃ c < cInLoop tile mapping 0, op.elemsPerAccess ∣ c ∧
        a = op.getOperandAddr INPUT_OPERAND + op.elementAddress
          ((nOffset tile mapping ns + n) * C + (cOffset tile mapping 0 + c)) := by
  obtain ⟨addrs, haddrs, hi⟩ := Option.bind_eq_some_iff.mp hi
  obtain rfl := Option.some.inj hi
  rw [h.multiplies.inputShape] at haddrs
  exact ⟨rfl, rfl, fun a => mem_sampled h.elemsPerAccess_pos haddrs⟩

theorem weightMovin_spec (h : op.Tiling mapping .plain N C M) {ms : Nat} {i : Instruction}
    (hi : op.weightMovin tile mapping ms 0 = some i) :
    i.opcode = .MOVIN ∧ i.operandId = INPUT_OPERAND + 1 ∧ ∀ a, a ∈ i.srcAddrs ↔
      ∃ m < op.mLoop tile mapping ms, ∃ c < cInLoop tile mapping 0, op.elemsPerAccess ∣ c ∧
        a = op.getOperandAddr (INPUT_OPERAND + 1) + op.elementAddress
          ((mOffset tile mapping ms + m) * C + (cOffset tile mapping 0 + c)) := by
  obtain ⟨addrs, haddrs, hi⟩ := Option.bind_eq_some_iff.mp hi
  obtain rfl := Option.some.inj hi
  rw [h.multiplies.weightC] at haddrs
  exact ⟨rfl, rfl, fun a => mem_sampled h.elemsPerAccess_pos haddrs⟩

theorem movout_spec (h : op.Tiling mapping .plain N C M) {ms ns : Nat} {i : Instruction}
    (hi : op.movout tile mapping ms ns = some i) :
    i.opcode = .MOVOUT ∧ i.operandId = OUTPUT_OPERAND ∧ ∀ a, a ∈ i.srcAddrs ↔
      ∃ n < op.nLoop tile mapping ns, ∃ m < op.mLoop tile mapping ms, op.elemsPerAccess ∣ m ∧
        a = op.getOperandAddr OUTPUT_OPERAND + op.elementAddress
          ((nOffset tile mapping ns + n) * M + (mOffset tile mapping ms + m)) := by
  obtain ⟨addrs, haddrs, hi⟩ := Option.bind_eq_some_iff.mp hi
  obtain rfl := Option.some.inj hi
  rw [h.multiplies.outputShape] at haddrs
  exact ⟨rfl, rfl, fun a => mem_sampled h.elemsPerAccess_pos haddrs⟩

/-- The MOVINs of a tile. -/
theorem mem_movins (h : op.Tiling mapping layout N C M) {is : List Instruction}
    (his : op.initializeInstructions tile mapping = some is) {i : Instruction} :
    i ∈ is ∧ i.opcode = .MOVIN ↔ ∃ ms ∈ op.mSteps tile mapping,
      (tile.accum = false ∧ op.hasBias = true ∧ i = op.biasMovin tile mapping ms) ∨
        op.weightMovin tile mapping ms 0 = some i ∨
        ms = 0 ∧ ∃ ns ∈ op.nSteps tile mapping, op.activationMovin tile mapping ns 0 = some i := by
  obtain ⟨loads, stores, hloads, hstores, rfl⟩ := (h.made his).sections
  constructor
  · rintro ⟨hi, hopcode⟩
    rcases List.mem_append.mp hi with hi | hi
    · rcases List.mem_append.mp hi with hi | hi
      · obtain ⟨load, hload, hi⟩ := List.mem_flatten.mp hi
        obtain ⟨ms, hms, hload⟩ := Loops.exists_of_mem hloads hload
        exact ⟨ms, hms, (h.mem_loads hload).mp hi⟩
      · obtain ⟨ms, -, hi⟩ := List.mem_flatMap.mp hi
        rw [opcode_of_computes hi] at hopcode
        cases hopcode
    · obtain ⟨p, -, hp⟩ := Loops.exists_of_mem hstores hi
      rw [opcode_of_movout hp] at hopcode
      cases hopcode
  · rintro ⟨ms, hms, hcases⟩
    obtain ⟨load, hload⟩ := Loops.exists_mapM_iff.mp ⟨loads, hloads⟩ ms hms
    have hi := (h.mem_loads hload).mpr hcases
    have hin : load ∈ loads := (Loops.mem_iff_of_mapM hloads).mpr ⟨ms, hms, hload⟩
    exact ⟨List.mem_append_left _ (List.mem_append_left _ (List.mem_flatten.mpr ⟨load, hin, hi⟩)),
      h.opcode_of_loads hload hi⟩

theorem touched_activations (h : op.Tiling mapping .plain N C M) (htile : InLoops mapping tile)
    {is : List Instruction} (his : op.initializeInstructions tile mapping = some is)
    {a : AddrType} :
    Touched is .MOVIN INPUT_OPERAND a ↔ ∃ ns ∈ op.nSteps tile mapping,
      ∃ n < op.nLoop tile mapping ns, ∃ c < cInLoop tile mapping 0, op.elemsPerAccess ∣ c ∧
        a = op.getOperandAddr INPUT_OPERAND + op.elementAddress
          ((nOffset tile mapping ns + n) * C + (cOffset tile mapping 0 + c)) := by
  constructor
  · rintro ⟨i, hi, hopcode, hoperand, ha⟩
    obtain ⟨ms, -, hcases⟩ := (h.mem_movins his).mp ⟨hi, hopcode⟩
    obtain ⟨-, -, rfl⟩ | hweights | ⟨-, ns, hns, hinput⟩ := hcases
    · cases hoperand
    · rw [(h.weightMovin_spec hweights).2.1] at hoperand
      cases hoperand
    · exact ⟨ns, hns, ((h.activationMovin_spec hinput).2.2 a).mp ha⟩
  · rintro ⟨ns, hns, hsample⟩
    obtain ⟨i, hi⟩ := ((h.exists_instructions_iff htile).mp ⟨is, his⟩).1 ns hns
    obtain ⟨hopcode, hoperand, hsrc⟩ := h.activationMovin_spec hi
    have hin := (h.mem_movins his).mpr ⟨0, h.zero_mem_mSteps htile, .inr (.inr ⟨rfl, ns, hns, hi⟩)⟩
    exact ⟨i, hin.1, hopcode, hoperand, (hsrc a).mpr hsample⟩

theorem touched_weights (h : op.Tiling mapping .plain N C M)
    {is : List Instruction} (his : op.initializeInstructions tile mapping = some is)
    {a : AddrType} :
    Touched is .MOVIN (INPUT_OPERAND + 1) a ↔ ∃ ms ∈ op.mSteps tile mapping,
      ∃ m < op.mLoop tile mapping ms, ∃ c < cInLoop tile mapping 0, op.elemsPerAccess ∣ c ∧
        a = op.getOperandAddr (INPUT_OPERAND + 1) + op.elementAddress
          ((mOffset tile mapping ms + m) * C + (cOffset tile mapping 0 + c)) := by
  constructor
  · rintro ⟨i, hi, hopcode, hoperand, ha⟩
    obtain ⟨ms, hms, hcases⟩ := (h.mem_movins his).mp ⟨hi, hopcode⟩
    obtain ⟨-, -, rfl⟩ | hweights | ⟨-, ns, hns, hinput⟩ := hcases
    · cases hoperand
    · exact ⟨ms, hms, ((h.weightMovin_spec hweights).2.2 a).mp ha⟩
    · rw [(h.activationMovin_spec hinput).2.1] at hoperand
      cases hoperand
  · rintro ⟨ms, hms, hsample⟩
    obtain ⟨i, hi⟩ : ∃ i, op.weightMovin tile mapping ms 0 = some i := h.exists_weightMovin ms 0
    obtain ⟨hopcode, hoperand, hsrc⟩ := h.weightMovin_spec hi
    have hin := (h.mem_movins his).mpr ⟨ms, hms, .inr (.inl hi)⟩
    exact ⟨i, hin.1, hopcode, hoperand, (hsrc a).mpr hsample⟩

theorem touched_outputs (h : op.Tiling mapping .plain N C M)
    {is : List Instruction} (his : op.initializeInstructions tile mapping = some is)
    {a : AddrType} :
    Touched is .MOVOUT OUTPUT_OPERAND a ↔ ∃ p ∈ op.storeSteps tile mapping,
      ∃ n < op.nLoop tile mapping p.2, ∃ m < op.mLoop tile mapping p.1, op.elemsPerAccess ∣ m ∧
        a = op.getOperandAddr OUTPUT_OPERAND + op.elementAddress
          ((nOffset tile mapping p.2 + n) * M + (mOffset tile mapping p.1 + m)) := by
  have hmovouts := (h.filter_sections his).2
  constructor
  · rintro ⟨i, hi, hopcode, -, ha⟩
    have hin : i ∈ is.filter (·.opcode = .MOVOUT) := List.mem_filter.mpr ⟨hi, by simpa using hopcode⟩
    obtain ⟨p, hp, hmovout⟩ := Loops.exists_of_forall₂_right hmovouts hin
    exact ⟨p, hp, ((h.movout_spec hmovout).2.2 a).mp ha⟩
  · rintro ⟨p, hp, hsample⟩
    obtain ⟨i, hin, hmovout⟩ := Loops.exists_of_forall₂ hmovouts hp
    obtain ⟨hopcode, hoperand, hsrc⟩ := h.movout_spec hmovout
    exact ⟨i, (List.mem_filter.mp hin).1, hopcode, hoperand, (hsrc a).mpr hsample⟩

end Tiling

/-! ## The chunks of a tile -/

/-- A number of the outer block `t`. -/
def InBlock (inner total t x : Nat) : Prop := t * inner ≤ x ∧ x < min ((t + 1) * inner) total

theorem inBlock_div {inner total x : Nat} (hinner : 0 < inner) (hx : x < total) :
    InBlock inner total (x / inner) x := by
  have hmod := Nat.mod_lt x hinner
  have hdiv := Nat.div_add_mod' x inner
  refine ⟨Nat.div_mul_le_self x inner, ?_⟩
  rw [Nat.succ_mul]
  omega

/-- The chunks of a block of rows are touched, where its samples are, exactly if those at the ends of
the rows are. -/
theorem block_touched_iff {node : Node} (hconfig : node.config.Divides) {base : AddrType}
    {inner total t : Nat} {dim cols outer size u : Nat} (hcut : CutInto dim cols outer size)
    (hu : u < outer) (hfits : total * cols ≤ 2 ^ 32) {T : AddrType → Prop}
    (hT : ∀ a, T a ↔ ∃ n, InBlock inner total t n ∧ ∃ k < min size (cols - u * size),
      node.config.dramReqSize / node.config.precision ∣ k ∧
        a = base + node.elementAddress (n * cols + (u * size + k))) :
    (∀ n, InBlock inner total t n → ∀ c, InBlock size cols u c →
      T (base + node.chunk (n * cols + c))) ↔
      ∀ n, InBlock inner total t n → Chunks.RowEnds
        (node.config.dramReqSize / node.config.precision) cols (u * size)
          (min size (cols - u * size)) (min ((t + 1) * inner) total) n := by
  have he : 0 < node.config.dramReqSize / node.config.precision :=
    Nat.div_pos (Nat.le_of_dvd hconfig.dramReqSize_pos hconfig.dvd) hconfig.precision_pos
  have hstart := hcut.start_lt u hu
  have hsize := hcut.inner_pos
  have hsucc : (u + 1) * size = u * size + size := Nat.succ_mul u size
  have hindex : ∀ {n k : Nat}, InBlock inner total t n → k < min size (cols - u * size) →
      n * cols + (u * size + k) < 2 ^ 32 := by
    intro n k hn hk
    have hmul : (n + 1) * cols ≤ total * cols :=
      Nat.mul_le_mul_right cols (Nat.lt_of_lt_of_le hn.2 (Nat.min_le_right _ _))
    rw [Nat.succ_mul] at hmul
    omega
  have hchunk : ∀ n, InBlock inner total t n → ∀ j < min size (cols - u * size),
      (T (base + node.chunk (n * cols + (u * size + j))) ↔
        ∃ n', InBlock inner total t n' ∧ ∃ k < min size (cols - u * size),
          node.config.dramReqSize / node.config.precision ∣ k ∧
            (n * cols + u * size + j) / (node.config.dramReqSize / node.config.precision) =
              (n' * cols + u * size + k) / (node.config.dramReqSize / node.config.precision)) := by
    intro n hn j hj
    rw [hT]
    refine exists_congr fun n' => and_congr_right fun hn' => exists_congr fun k =>
      and_congr_right fun hk => and_congr_right fun _ => ?_
    have hlt := hindex hn hj
    have hlt' := hindex hn' hk
    rw [node.elementAddress_eq, Nat.mod_eq_of_lt hlt', hconfig.chunk_inj hlt.le hlt'.le,
      Nat.add_assoc, Nat.add_assoc]
  have hlen : 0 < min size (cols - u * size) := by omega
  have hcols : u * size + min size (cols - u * size) ≤ cols := by omega
  unfold InBlock at *
  simp only [and_imp] at *
  rw [← Chunks.block_iff he hlen hcols]
  refine forall_congr' fun n => imp_congr_right fun hfirst => imp_congr_right fun hn => ?_
  constructor
  · intro hall j hj
    exact (hchunk n hfirst hn j hj).mp (hall (u * size + j) (Nat.le_add_right _ _) (by omega))
  · intro hall c hc hlt
    obtain ⟨j, rfl⟩ := Nat.exists_eq_add_of_le hc
    exact (hchunk n hfirst hn j (by omega)).mpr (hall j (by omega))

namespace Tiling

theorem exists_nSteps_iff (h : op.Tiling mapping layout N C M) {P : Nat → Prop} :
    (∃ ns ∈ op.nSteps tile mapping, ∃ n < op.nLoop tile mapping ns,
      P (nOffset tile mapping ns + n)) ↔
      ∃ n, InBlock mapping.tileInLoop.N N tile.batch n ∧ P n := by
  constructor
  · rintro ⟨ns, hns, n, hn, hP⟩
    obtain ⟨hlt, hdvd, -⟩ := h.mem_nSteps.mp hns
    have hin := h.nOffset_add_lt hn
    have hstep : op.loopSize ≤ mapping.tileInLoop.N - ns :=
      Nat.le_of_dvd (by omega) (Nat.dvd_sub h.cut.cutN.dvd hdvd)
    rw [h.nLoop_eq] at hn
    unfold nOffset at *
    refine ⟨_, ⟨by omega, ?_⟩, hP⟩
    rw [Nat.succ_mul]
    omega
  · rintro ⟨n, ⟨hfirst, hlast⟩, hP⟩
    have hbatch : tile.batch = n / mapping.tileInLoop.N :=
      (Nat.div_eq_of_lt_le hfirst (by omega)).symm
    obtain ⟨ns, hns, n', hn', rfl⟩ := h.nLoop_of_locate (by omega) hbatch
    exact ⟨ns, hns, n', hn', hP⟩

theorem exists_mSteps_iff (h : op.Tiling mapping layout N C M) {P : Nat → Prop} :
    (∃ ms ∈ op.mSteps tile mapping, ∃ m < op.mLoop tile mapping ms,
      P (mOffset tile mapping ms + m)) ↔
      ∃ m, InBlock mapping.tileInLoop.M M tile.M m ∧ P m := by
  constructor
  · rintro ⟨ms, hms, m, hm, hP⟩
    obtain ⟨hlt, hdvd, -⟩ := h.mem_mSteps.mp hms
    have hin := h.mOffset_add_lt hm
    have hstep : op.loopSize ≤ mapping.tileInLoop.M - ms :=
      Nat.le_of_dvd (by omega) (Nat.dvd_sub h.cut.cutM.dvd hdvd)
    rw [h.mLoop_eq] at hm
    unfold mOffset at *
    refine ⟨_, ⟨by omega, ?_⟩, hP⟩
    rw [Nat.succ_mul]
    omega
  · rintro ⟨m, ⟨hfirst, hlast⟩, hP⟩
    have hM : tile.M = m / mapping.tileInLoop.M :=
      (Nat.div_eq_of_lt_le hfirst (by omega)).symm
    obtain ⟨ms, hms, hm', heq⟩ := h.mLoop_of_locate (by omega) hM
    exact ⟨ms, hms, _, hm', by rwa [heq]⟩

/-- The activations of a tile. -/
theorem activations_iff (h : op.Tiling mapping .plain N C M) (hconfig : op.config.Divides)
    (htile : InLoops mapping tile) (hfits : N * C ≤ 2 ^ 32) {is : List Instruction}
    (his : op.initializeInstructions tile mapping = some is) :
    (∀ n, InBlock mapping.tileInLoop.N N tile.batch n → ∀ c, InBlock mapping.tileInLoop.C C tile.C c →
      Touched is .MOVIN INPUT_OPERAND
        (op.getOperandAddr INPUT_OPERAND + op.chunk (n * C + c))) ↔
      ∀ n, InBlock mapping.tileInLoop.N N tile.batch n →
        Chunks.RowEnds op.elemsPerAccess C (tile.C * mapping.tileInLoop.C)
          (min mapping.tileInLoop.C (C - tile.C * mapping.tileInLoop.C))
          (min ((tile.batch + 1) * mapping.tileInLoop.N) N) n := by
  refine block_touched_iff hconfig h.cut.cutC htile.C_lt hfits fun a => ?_
  rw [h.touched_activations htile his, h.cInLoop_eq]
  exact h.exists_nSteps_iff (P := fun n => ∃ c < min mapping.tileInLoop.C
    (C - cOffset tile mapping 0), op.elemsPerAccess ∣ c ∧ a = op.getOperandAddr INPUT_OPERAND +
      op.elementAddress (n * C + (cOffset tile mapping 0 + c)))

/-- The weights of a tile. -/
theorem weights_iff (h : op.Tiling mapping .plain N C M) (hconfig : op.config.Divides)
    (htile : InLoops mapping tile) (hfits : M * C ≤ 2 ^ 32) {is : List Instruction}
    (his : op.initializeInstructions tile mapping = some is) :
    (∀ m, InBlock mapping.tileInLoop.M M tile.M m → ∀ c, InBlock mapping.tileInLoop.C C tile.C c →
      Touched is .MOVIN (INPUT_OPERAND + 1)
        (op.getOperandAddr (INPUT_OPERAND + 1) + op.chunk (m * C + c))) ↔
      ∀ m, InBlock mapping.tileInLoop.M M tile.M m →
        Chunks.RowEnds op.elemsPerAccess C (tile.C * mapping.tileInLoop.C)
          (min mapping.tileInLoop.C (C - tile.C * mapping.tileInLoop.C))
          (min ((tile.M + 1) * mapping.tileInLoop.M) M) m := by
  refine block_touched_iff hconfig h.cut.cutC htile.C_lt hfits fun a => ?_
  rw [h.touched_weights his, h.cInLoop_eq]
  exact h.exists_mSteps_iff (P := fun m => ∃ c < min mapping.tileInLoop.C
    (C - cOffset tile mapping 0), op.elemsPerAccess ∣ c ∧
      a = op.getOperandAddr (INPUT_OPERAND + 1) +
        op.elementAddress (m * C + (cOffset tile mapping 0 + c)))

/-- The samples of the stores of all tiles. -/
theorem touched_all_outputs (h : op.Tiling mapping .plain N C M) {tiles : List Tile}
    (htiles : op.initializeTiles mapping = some tiles) {a : AddrType} :
    (∃ tile ∈ tiles, Touched tile.instructions .MOVOUT OUTPUT_OPERAND a) ↔
      ∃ n < N, ∃ m < M, op.elemsPerAccess ∣ m % op.loopSize ∧
        a = op.getOperandAddr OUTPUT_OPERAND + op.elementAddress (n * M + m) := by
  have hall := h.tileOf_of_initializeTiles htiles
  constructor
  · rintro ⟨tile, htile, htouched⟩
    obtain ⟨loop, hloop, hof⟩ := Loops.exists_of_forall₂_right hall htile
    obtain ⟨p, hp, n, hn, m, hm, hdvd, ha⟩ := (h.touched_outputs hof.instructions).mp htouched
    obtain ⟨-, hms, -⟩ := (h.mem_storeSteps (hof.inLoops hloop)).mp hp
    refine ⟨_, h.nOffset_add_lt hn, _, h.mOffset_add_lt hm, ?_, ha⟩
    rwa [h.mOffset_add_mod hms hm]
  · rintro ⟨n, hn, m, hm, hdvd, rfl⟩
    have hlast := Nat.sub_add_cancel (h.cut.cutC.pos h.C_pos)
    have hloop : (n / mapping.tileInLoop.N, m / mapping.tileInLoop.M, mapping.tileOutLoop.C - 1) ∈
        tileLoops mapping :=
      mem_tileLoops.mpr ⟨(h.cut.cutN.locate hn).1, (h.cut.cutM.locate hm).1, by show _ - 1 < _; omega⟩
    obtain ⟨tile, htile, hof⟩ := Loops.exists_of_forall₂ hall hloop
    obtain ⟨ns, hns, n', hn', rfl⟩ := h.nLoop_of_locate hn hof.batch_eq
    obtain ⟨ms, hms, hm', heq⟩ := h.mLoop_of_locate hm hof.M_eq
    have hstep : (ms, ns) ∈ op.storeSteps tile mapping :=
      (h.mem_storeSteps (hof.inLoops hloop)).mpr ⟨by rw [hof.C_eq]; exact hlast, hms, hns⟩
    refine ⟨tile, htile, (h.touched_outputs hof.instructions).mpr
      ⟨(ms, ns), hstep, n', hn', _, hm', hdvd, ?_⟩⟩
    rw [heq]

/-- The outputs of all tiles. -/
theorem outputs_iff (h : op.Tiling mapping .plain N C M) (hconfig : op.config.Divides)
    (hfits : N * M ≤ 2 ^ 32) {tiles : List Tile}
    (htiles : op.initializeTiles mapping = some tiles) :
    (∀ n < N, ∀ m < M, ∃ tile ∈ tiles, Touched tile.instructions .MOVOUT OUTPUT_OPERAND
      (op.getOperandAddr OUTPUT_OPERAND + op.chunk (n * M + m))) ↔
      Chunks.LastEnds op.elemsPerAccess op.loopSize N M := by
  have hindex : ∀ {n m : Nat}, n < N → m < M → n * M + m < 2 ^ 32 := by
    intro n m hn hm
    have hmul : (n + 1) * M ≤ N * M := Nat.mul_le_mul_right M hn
    rw [Nat.succ_mul] at hmul
    omega
  rw [← Chunks.rows_iff h.elemsPerAccess_pos h.loopSize_pos h.N_pos h.M_pos]
  refine forall_congr' fun n => imp_congr_right fun hn => forall_congr' fun m =>
    imp_congr_right fun hm => ?_
  rw [h.touched_all_outputs htiles]
  refine exists_congr fun n' => and_congr_right fun hn' => exists_congr fun m' =>
    and_congr_right fun hm' => and_congr_right fun _ => ?_
  have hlt := hindex hn hm
  have hlt' := hindex hn' hm'
  rw [op.elementAddress_eq, Nat.mod_eq_of_lt hlt', hconfig.chunk_inj hlt.le hlt'.le]
  rfl

/-- With more elements than 32 bits count, `make_address` never reaches the chunk after them. -/
theorem chunk_ne_elementAddress {node : Node} (hconfig : node.config.Divides)
    (hword : node.config.dramReqSize / node.config.precision ∣ 2 ^ 32) {base : AddrType} {x : Nat} :
    base + node.chunk (2 ^ 32) ≠ base + node.elementAddress x := by
  have hx : x % 2 ^ 32 < 2 ^ 32 := Nat.mod_lt _ (by decide)
  have he : 0 < node.config.dramReqSize / node.config.precision :=
    Nat.div_pos (Nat.le_of_dvd hconfig.dramReqSize_pos hconfig.dvd) hconfig.precision_pos
  rw [node.elementAddress_eq, Ne, hconfig.chunk_inj (Nat.le_refl _) hx.le]
  have hlt : x % 2 ^ 32 / (node.config.dramReqSize / node.config.precision) <
      2 ^ 32 / (node.config.dramReqSize / node.config.precision) := by
    rw [Nat.div_lt_iff_lt_mul he, Nat.div_mul_cancel hword]
    exact hx
  omega

end Tiling

/-- The elements of the three tensors are counted in 32 bits. -/
structure Fits (N C M : Nat) : Prop where
  input : N * C ≤ 2 ^ 32
  weight : M * C ≤ 2 ^ 32
  output : N * M ≤ 2 ^ 32

/-- The last chunk of each row of a tile's block is sampled, and the last chunk of the output. -/
structure ChunkEnds (op : GemmWS) (mapping : Mapping) (N C M : Nat) : Prop where
  input : ∀ t < mapping.tileOutLoop.N, ∀ u < mapping.tileOutLoop.C, ∀ n,
    InBlock mapping.tileInLoop.N N t n → Chunks.RowEnds op.elemsPerAccess C
      (u * mapping.tileInLoop.C) (min mapping.tileInLoop.C (C - u * mapping.tileInLoop.C))
      (min ((t + 1) * mapping.tileInLoop.N) N) n
  weight : ∀ t < mapping.tileOutLoop.M, ∀ u < mapping.tileOutLoop.C, ∀ m,
    InBlock mapping.tileInLoop.M M t m → Chunks.RowEnds op.elemsPerAccess C
      (u * mapping.tileInLoop.C) (min mapping.tileInLoop.C (C - u * mapping.tileInLoop.C))
      (min ((t + 1) * mapping.tileInLoop.M) M) m
  output : Chunks.LastEnds op.elemsPerAccess op.loopSize N M

/-- The aligned chunk of every element of a tile's block is loaded by the tile, and that of every element
of the output is stored by some tile. -/
structure ChunksTouched (op : GemmWS) (mapping : Mapping) (N C M : Nat) (tiles : List Tile) :
    Prop where
  activations : ∀ tile ∈ tiles, ∀ n, InBlock mapping.tileInLoop.N N tile.batch n →
    ∀ c, InBlock mapping.tileInLoop.C C tile.C c → Touched tile.instructions .MOVIN INPUT_OPERAND
      (op.getOperandAddr INPUT_OPERAND + op.chunk (n * C + c))
  weights : ∀ tile ∈ tiles, ∀ m, InBlock mapping.tileInLoop.M M tile.M m →
    ∀ c, InBlock mapping.tileInLoop.C C tile.C c →
      Touched tile.instructions .MOVIN (INPUT_OPERAND + 1)
        (op.getOperandAddr (INPUT_OPERAND + 1) + op.chunk (m * C + c))
  outputs : ∀ n < N, ∀ m < M, ∃ tile ∈ tiles, Touched tile.instructions .MOVOUT OUTPUT_OPERAND
    (op.getOperandAddr OUTPUT_OPERAND + op.chunk (n * M + m))

namespace Tiling

/-- The blocks of the tiles have every element. -/
theorem exists_tile (h : op.Tiling mapping layout N C M) {tiles : List Tile}
    (htiles : op.initializeTiles mapping = some tiles) {n m c : Nat} (hn : n < mapping.tileOutLoop.N)
    (hm : m < mapping.tileOutLoop.M) (hc : c < mapping.tileOutLoop.C) :
    ∃ tile ∈ tiles, InLoops mapping tile ∧
      op.initializeInstructions tile mapping = some tile.instructions ∧
        tile.batch = n ∧ tile.M = m ∧ tile.C = c := by
  have hloop : (n, m, c) ∈ tileLoops mapping := mem_tileLoops.mpr ⟨hn, hm, hc⟩
  obtain ⟨tile, htile, hof⟩ := Loops.exists_of_forall₂ (h.tileOf_of_initializeTiles htiles) hloop
  exact ⟨tile, htile, hof.inLoops hloop, hof.instructions, hof.batch_eq, hof.M_eq, hof.C_eq⟩

theorem chunksTouched_iff (h : op.Tiling mapping .plain N C M) (hconfig : op.config.Divides)
    (hfits : Fits N C M) {tiles : List Tile} (htiles : op.initializeTiles mapping = some tiles) :
    op.ChunksTouched mapping N C M tiles ↔ op.ChunkEnds mapping N C M := by
  have htile := h.inLoops_of_initializeTiles htiles
  have hN := h.cut.cutN.pos h.N_pos
  have hM := h.cut.cutM.pos h.M_pos
  constructor
  · rintro ⟨hactivations, hweights, houtputs⟩
    refine ⟨?_, ?_, (h.outputs_iff hconfig hfits.output htiles).mp houtputs⟩
    · intro t ht u hu
      obtain ⟨tile, hmem, hin, his, rfl, -, rfl⟩ := h.exists_tile htiles ht hM hu
      exact (h.activations_iff hconfig hin hfits.input his).mp (hactivations tile hmem)
    · intro t ht u hu
      obtain ⟨tile, hmem, hin, his, -, rfl, rfl⟩ := h.exists_tile htiles hN ht hu
      exact (h.weights_iff hconfig hin hfits.weight his).mp (hweights tile hmem)
  · rintro ⟨hinput, hweight, houtput⟩
    refine ⟨fun tile hmem => ?_, fun tile hmem => ?_,
      (h.outputs_iff hconfig hfits.output htiles).mpr houtput⟩
    · obtain ⟨hin, his⟩ := htile tile hmem
      exact (h.activations_iff hconfig hin hfits.input his).mpr
        (hinput tile.batch hin.batch_lt tile.C hin.C_lt)
    · obtain ⟨hin, his⟩ := htile tile hmem
      exact (h.weights_iff hconfig hin hfits.weight his).mpr (hweight tile.M hin.M_lt tile.C hin.C_lt)

/-- The index of no element has more than 32 bits, where the chunk of each is touched. -/
theorem fits_of_chunksTouched (h : op.Tiling mapping .plain N C M) (hconfig : op.config.Divides)
    (hword : op.elemsPerAccess ∣ 2 ^ 32) {tiles : List Tile}
    (htiles : op.initializeTiles mapping = some tiles)
    (htouched : op.ChunksTouched mapping N C M tiles) : Fits N C M := by
  obtain ⟨hactivations, hweights, houtputs⟩ := htouched
  have hN := h.cut.cutN.pos h.N_pos
  have hM := h.cut.cutM.pos h.M_pos
  -- the place of the first element whose index does not fit
  have hplace : ∀ {rows cols : Nat}, 0 < cols → ¬ rows * cols ≤ 2 ^ 32 →
      2 ^ 32 / cols < rows ∧ 2 ^ 32 % cols < cols ∧
        2 ^ 32 / cols * cols + 2 ^ 32 % cols = 2 ^ 32 := by
    intro rows cols hcols hlt
    exact ⟨(Nat.div_lt_iff_lt_mul hcols).mpr (by omega), Nat.mod_lt _ hcols, Nat.div_add_mod' _ _⟩
  refine ⟨?_, ?_, ?_⟩
  · by_contra hlt
    obtain ⟨hn, hc, hindex⟩ := hplace h.C_pos hlt
    obtain ⟨tile, hmem, hin, his, hbatch, -, hcol⟩ := h.exists_tile htiles
      (h.cut.cutN.locate hn).1 hM (h.cut.cutC.whole.locate hc).1
    have ha := hactivations tile hmem _ (hbatch ▸ inBlock_div h.cut.cutN.inner_pos hn) _
      (hcol ▸ inBlock_div h.cut.cutC.inner_pos hc)
    rw [hindex] at ha
    obtain ⟨ns, -, n, -, c, -, -, heq⟩ := (h.touched_activations hin his).mp ha
    exact chunk_ne_elementAddress hconfig hword heq
  · by_contra hlt
    obtain ⟨hm, hc, hindex⟩ := hplace h.C_pos hlt
    obtain ⟨tile, hmem, -, his, -, hrow, hcol⟩ := h.exists_tile htiles hN
      (h.cut.cutM.locate hm).1 (h.cut.cutC.whole.locate hc).1
    have ha := hweights tile hmem _ (hrow ▸ inBlock_div h.cut.cutM.inner_pos hm) _
      (hcol ▸ inBlock_div h.cut.cutC.inner_pos hc)
    rw [hindex] at ha
    obtain ⟨ms, -, m, -, c, -, -, heq⟩ := (h.touched_weights his).mp ha
    exact chunk_ne_elementAddress hconfig hword heq
  · by_contra hlt
    obtain ⟨hn, hm, hindex⟩ := hplace h.M_pos hlt
    have ha := houtputs _ hn _ hm
    rw [hindex] at ha
    obtain ⟨n, -, m, -, -, heq⟩ := (h.touched_all_outputs htiles).mp ha
    exact chunk_ne_elementAddress hconfig hword heq

end Tiling

/-- Rows of three numbers, where an access holds four. -/
def oddRows : GemmWS :=
  { smallNode with
    config := { smallNode.config with dramReqSize := 16 }
    inputShape := [2, 3]
    weightShape := [3, 1]
    outputShape := [2, 1] }

theorem oddRows_multiplies : oddRows.Multiplies .plain 2 3 1 := ⟨rfl, rfl, rfl, rfl, trivial⟩

theorem oddRows_divides : oddRows.config.Divides := ⟨by decide, by decide, by decide, by decide⟩

end GemmWS

end OnnxSim
