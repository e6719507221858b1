import OnnxSim.Operations.GemmTiles

/-!
# The cover of a matrix multiplication

With the mapping of `gemm_mapping` the tiles of a multiplication together do its work once and store its
output once (`GemmWS.covered_once_iff`). The tiling indexes a transposed input as if it were not
transposed, so `make_address` throws where that is out of range.
-/

namespace OnnxSim

open Blocks (Mem Tiles)

namespace GemmWS

/-- The multiplications that instructions preload. -/
def macs (is : List Instruction) : Nat :=
  ((is.filter (·.opcode = .GEMM_PRELOAD)).map fun i => i.tileM * i.tileK * i.tileN).sum

/-- The elements of the output that a step of the stores writes. -/
def Stores (op : GemmWS) (tile : Tile) (mapping : Mapping) (n m : Nat) (p : Nat × Nat) : Bool :=
  decide (Mem m (mOffset tile mapping p.1, op.mLoop tile mapping p.1)) &&
    decide (Mem n (nOffset tile mapping p.2, op.nLoop tile mapping p.2))

/-- The tiles of a multiplication cover it once. -/
structure CoveredOnce (op : GemmWS) (mapping : Mapping) (N C M : Nat) (tiles : List Tile) :
    Prop where
  work : (tiles.map fun tile => macs tile.instructions).sum = N * M * C
  movouts : ∀ tile ∈ tiles, List.Forall₂ (fun p i => op.movout tile mapping p.1 p.2 = some i)
    (op.storeSteps tile mapping) (tile.instructions.filter (·.opcode = .MOVOUT))
  storedOnce : ∀ n m,
    (tiles.map fun tile => (op.storeSteps tile mapping).countP (op.Stores tile mapping n m)).sum =
      if n < N ∧ m < M then 1 else 0
  storedLast : ∀ tile ∈ tiles, ∀ i ∈ tile.instructions, i.opcode = .MOVOUT →
    tile.C + 1 = mapping.tileOutLoop.C
  noneDropped : tiles.length =
    mapping.tileOutLoop.N * mapping.tileOutLoop.M * mapping.tileOutLoop.C
  nonempty : ∀ tile ∈ tiles, tile.instructions ≠ []
  inner : ∀ size ∈ [mapping.tileInLoop.N, mapping.tileInLoop.C, mapping.tileInLoop.M],
    0 < size ∧ op.loopSize ∣ size

variable {op : GemmWS} {mapping : Mapping} {layout : GemmLayout} {N C M : Nat} {tile : Tile}

/-! ## The sections of a tile -/

theorem opcode_of_movout {ms ns : Nat} {i : Instruction}
    (h : op.movout tile mapping ms ns = some i) : i.opcode = .MOVOUT := by
  obtain ⟨addrs, -, h⟩ := Option.bind_eq_some_iff.mp h
  obtain rfl := Option.some.inj h
  rfl

theorem opcode_of_computes {ms : Nat} {i : Instruction} (h : i ∈ op.computes tile mapping ms) :
    i.opcode = .GEMM_PRELOAD := by
  simp only [computes, List.mem_flatMap, List.mem_map] at h
  obtain ⟨cs, -, ns, -, c, -, rfl⟩ := h
  rfl

namespace Tiling

theorem opcode_of_loads (h : op.Tiling mapping layout N C M) {ms : Nat} {is : List Instruction}
    (hloads : op.loads tile mapping ms = some is) {i : Instruction} (hi : i ∈ is) :
    i.opcode = .MOVIN := by
  obtain ⟨-, -, rfl⟩ | hweights | ⟨-, ns, -, hinputs⟩ := (h.mem_loads hloads).mp hi
  · rfl
  · obtain ⟨addrs, -, hweights⟩ := Option.bind_eq_some_iff.mp hweights
    obtain rfl := Option.some.inj hweights
    rfl
  · obtain ⟨addrs, -, hinputs⟩ := Option.bind_eq_some_iff.mp hinputs
    obtain rfl := Option.some.inj hinputs
    rfl

/-- The opcode of an instruction says in which section of its tile it is. -/
theorem filter_sections (h : op.Tiling mapping layout N C M) {is : List Instruction}
    (his : op.initializeInstructions tile mapping = some is) :
    is.filter (·.opcode = .GEMM_PRELOAD) =
        (op.mSteps tile mapping).flatMap (op.computes tile mapping) ∧
      List.Forall₂ (fun p i => op.movout tile mapping p.1 p.2 = some i) (op.storeSteps tile mapping)
        (is.filter (·.opcode = .MOVOUT)) := by
  obtain ⟨loads, stores, hloads, hstores, rfl⟩ := (h.made his).sections
  have hmovin : ∀ i ∈ loads.flatten, i.opcode = .MOVIN := by
    intro i hi
    obtain ⟨is, his, hi⟩ := List.mem_flatten.mp hi
    obtain ⟨ms, -, hms⟩ := Loops.exists_of_mem hloads his
    exact h.opcode_of_loads hms hi
  have hpreload : ∀ i ∈ (op.mSteps tile mapping).flatMap (op.computes tile mapping),
      i.opcode = .GEMM_PRELOAD := by
    intro i hi
    obtain ⟨ms, -, hi⟩ := List.mem_flatMap.mp hi
    exact opcode_of_computes hi
  have hmovout : ∀ i ∈ stores, i.opcode = .MOVOUT := by
    intro i hi
    obtain ⟨p, -, hp⟩ := Loops.exists_of_mem hstores hi
    exact opcode_of_movout hp
  simp only [List.filter_append]
  constructor
  · rw [List.filter_eq_nil_iff.mpr, List.filter_eq_self.mpr, List.filter_eq_nil_iff.mpr,
      List.nil_append, List.append_nil]
    · intro i hi
      simp [hmovout i hi]
    · intro i hi
      simp [hpreload i hi]
    · intro i hi
      simp [hmovin i hi]
  · have hkept : stores.filter (·.opcode = .MOVOUT) = stores := by
      refine List.filter_eq_self.mpr fun i hi => ?_
      simp [hmovout i hi]
    rw [List.filter_eq_nil_iff.mpr, List.filter_eq_nil_iff.mpr, hkept, List.nil_append,
      List.nil_append]
    · exact Loops.forall₂_of_mapM hstores
    · intro i hi
      simp [hpreload i hi]
    · intro i hi
      simp [hmovin i hi]

/-! ## The work -/

theorem sum_computes (h : op.Tiling mapping layout N C M) (ms : Nat) :
    ((op.computes tile mapping ms).map fun i => i.tileM * i.tileK * i.tileN).sum =
      op.mLoop tile mapping ms *
        (cInLoop tile mapping 0 * ((op.nSteps tile mapping).map (op.nLoop tile mapping)).sum) := by
  have hwidth : ((steps (cInLoop tile mapping 0) op.loopSize).map fun c =>
      min (cInLoop tile mapping 0 - c) op.loopSize).sum = cInLoop tile mapping 0 := by
    have htiles : Tiles 0 ((steps (cInLoop tile mapping 0) op.loopSize).map fun c =>
        (c, min (cInLoop tile mapping 0 - c) op.loopSize)) (cInLoop tile mapping 0) :=
      tiles_steps h.loopSize_pos
    simpa [List.map_map, Function.comp_def] using htiles.sum
  have hstep : ∀ ns, ((steps (cInLoop tile mapping 0) op.loopSize).map fun c =>
      op.mLoop tile mapping ms * min (cInLoop tile mapping 0 - c) op.loopSize *
        op.nLoop tile mapping ns).sum =
      op.mLoop tile mapping ms * (cInLoop tile mapping 0 * op.nLoop tile mapping ns) := by
    intro ns
    rw [List.sum_map_mul_right, List.sum_map_mul_left, hwidth, Nat.mul_assoc]
  unfold computes
  rw [h.cSteps_eq, List.flatMap_singleton, Blocks.sum_flatMap]
  simp only [List.map_map, Function.comp_def, hstep]
  rw [List.sum_map_mul_left, List.sum_map_mul_left]

/-- The work of a tile is the product of its three sizes. -/
theorem macs_eq (h : op.Tiling mapping layout N C M) {is : List Instruction}
    (his : op.initializeInstructions tile mapping = some is) :
    macs is = ((op.mSteps tile mapping).map (op.mLoop tile mapping)).sum *
      (cInLoop tile mapping 0 * ((op.nSteps tile mapping).map (op.nLoop tile mapping)).sum) := by
  unfold macs
  rw [(h.filter_sections his).1, Blocks.sum_flatMap]
  simp only [h.sum_computes]
  rw [List.sum_map_mul_right]

end Tiling

/-- A sum over all tiles of a product, one factor for each dimension. -/
theorem sum_tileLoops (f g k : Nat → Nat) :
    ((tileLoops mapping).map fun loop => f loop.1 * g loop.2.1 * k loop.2.2).sum =
      ((List.range mapping.tileOutLoop.N).map f).sum *
        ((List.range mapping.tileOutLoop.M).map g).sum *
          ((List.range mapping.tileOutLoop.C).map k).sum := by
  have hblock : ∀ block : Nat × Nat, ((reductionLoop mapping block).map fun loop =>
      f loop.1 * g loop.2.1 * k loop.2.2).sum =
        f block.1 * g block.2 * ((List.range mapping.tileOutLoop.C).map k).sum := by
    intro block
    unfold reductionLoop
    rw [List.map_map, ← List.sum_map_mul_left]
    rfl
  unfold tileLoops
  rw [Blocks.sum_flatMap]
  simp only [hblock]
  rw [List.sum_map_mul_right]
  unfold blockLoops
  rw [Blocks.sum_product]

namespace Tiling

theorem nSteps_blocks (h : op.Tiling mapping layout N C M) :
    ((op.nSteps tile mapping).map fun ns => (nOffset tile mapping ns, op.nLoop tile mapping ns)) =
      blocksFrom (tile.batch * mapping.tileInLoop.N) op.loopSize N mapping.tileInLoop.N := by
  unfold nSteps nLoop
  rw [h.cut.totalN]
  rfl

theorem mSteps_blocks (h : op.Tiling mapping layout N C M) :
    ((op.mSteps tile mapping).map fun ms => (mOffset tile mapping ms, op.mLoop tile mapping ms)) =
      blocksFrom (tile.M * mapping.tileInLoop.M) op.loopSize M mapping.tileInLoop.M := by
  unfold mSteps mLoop
  rw [h.cut.totalM]
  rfl

theorem sum_nLoop (h : op.Tiling mapping layout N C M) :
    ((op.nSteps tile mapping).map (op.nLoop tile mapping)).sum =
      extent op.loopSize N mapping.tileInLoop.N tile.batch := by
  unfold extent
  rw [← h.nSteps_blocks, List.map_map]
  rfl

theorem sum_mLoop (h : op.Tiling mapping layout N C M) :
    ((op.mSteps tile mapping).map (op.mLoop tile mapping)).sum =
      extent op.loopSize M mapping.tileInLoop.M tile.M := by
  unfold extent
  rw [← h.mSteps_blocks, List.map_map]
  rfl

theorem cInLoop_extent (h : op.Tiling mapping layout N C M) (htile : InLoops mapping tile) :
    cInLoop tile mapping 0 = extent mapping.tileInLoop.C C mapping.tileInLoop.C tile.C := by
  rw [h.cut.cutC.extent_self htile.C_lt, ← within_eq]
  unfold cInLoop cOffset
  rw [h.cut.totalC]
  simp

/-- The tiles together do all the multiplications. -/
theorem work (h : op.Tiling mapping layout N C M) {tiles : List Tile}
    (htiles : op.initializeTiles mapping = some tiles) :
    (tiles.map fun tile => macs tile.instructions).sum = N * M * C := by
  have hmacs : ∀ loop ∈ tileLoops mapping, ∀ tile, op.TileOf mapping loop tile →
      macs tile.instructions = extent op.loopSize N mapping.tileInLoop.N loop.1 *
        extent op.loopSize M mapping.tileInLoop.M loop.2.1 *
          extent mapping.tileInLoop.C C mapping.tileInLoop.C loop.2.2 := by
    intro loop hloop tile htile
    rw [h.macs_eq htile.instructions, h.cInLoop_extent (htile.inLoops hloop), h.sum_nLoop,
      h.sum_mLoop, htile.batch_eq, htile.M_eq, htile.C_eq]
    ac_rfl
  rw [Loops.map_eq_of_forall₂ (h.tileOf_of_initializeTiles htiles) hmacs,
    sum_tileLoops (extent op.loopSize N mapping.tileInLoop.N)
      (extent op.loopSize M mapping.tileInLoop.M)
      (extent mapping.tileInLoop.C C mapping.tileInLoop.C),
    h.cut.cutN.sum_extent h.loopSize_pos, h.cut.cutM.sum_extent h.loopSize_pos,
    h.cut.cutC.whole.sum_extent h.cut.cutC.inner_pos]

/-! ## The stores -/

theorem countP_storeSteps (h : op.Tiling mapping layout N C M) (htile : InLoops mapping tile)
    (n m : Nat) :
    (op.storeSteps tile mapping).countP (op.Stores tile mapping n m) =
      hits op.loopSize N mapping.tileInLoop.N n tile.batch *
        hits op.loopSize M mapping.tileInLoop.M m tile.M *
          if tile.C + 1 = mapping.tileOutLoop.C then 1 else 0 := by
  have hrows : (op.nSteps tile mapping).countP (fun ns =>
      decide (Mem n (nOffset tile mapping ns, op.nLoop tile mapping ns))) =
        hits op.loopSize N mapping.tileInLoop.N n tile.batch := by
    unfold hits
    rw [← h.nSteps_blocks, List.countP_map]
    rfl
  have hcols : (op.mSteps tile mapping).countP (fun ms =>
      decide (Mem m (mOffset tile mapping ms, op.mLoop tile mapping ms))) =
        hits op.loopSize M mapping.tileInLoop.M m tile.M := by
    unfold hits
    rw [← h.mSteps_blocks, List.countP_map]
    rfl
  rw [h.storeSteps_eq htile]
  split
  · rw [Nat.mul_one, Nat.mul_comm, ← hrows, ← hcols]
    exact Blocks.countP_product _ _
      (fun ms => decide (Mem m (mOffset tile mapping ms, op.mLoop tile mapping ms)))
      (fun ns => decide (Mem n (nOffset tile mapping ns, op.nLoop tile mapping ns)))
  · rfl

/-- Each element of the output is stored once. -/
theorem storedOnce (h : op.Tiling mapping layout N C M) {tiles : List Tile}
    (htiles : op.initializeTiles mapping = some tiles) (n m : Nat) :
    (tiles.map fun tile => (op.storeSteps tile mapping).countP (op.Stores tile mapping n m)).sum =
      if n < N ∧ m < M then 1 else 0 := by
  have hcount : ∀ loop ∈ tileLoops mapping, ∀ tile, op.TileOf mapping loop tile →
      (op.storeSteps tile mapping).countP (op.Stores tile mapping n m) =
        hits op.loopSize N mapping.tileInLoop.N n loop.1 *
          hits op.loopSize M mapping.tileInLoop.M m loop.2.1 *
            if loop.2.2 + 1 = mapping.tileOutLoop.C then 1 else 0 := by
    intro loop hloop tile htile
    rw [h.countP_storeSteps (htile.inLoops hloop), htile.batch_eq, htile.M_eq, htile.C_eq]
  have hlast : ((List.range mapping.tileOutLoop.C).map fun c =>
      if c + 1 = mapping.tileOutLoop.C then 1 else 0).sum = 1 := by
    obtain ⟨k, hk⟩ := Nat.exists_eq_succ_of_ne_zero (h.cut.cutC.pos h.C_pos).ne'
    have hearlier : ((List.range k).map fun c => if c + 1 = k.succ then 1 else 0).sum = 0 := by
      refine List.sum_eq_zero fun x hx => ?_
      obtain ⟨c, hc, rfl⟩ := List.mem_map.mp hx
      rw [if_neg]
      have hlt := List.mem_range.mp hc
      omega
    rw [hk, List.range_succ, List.map_append, List.sum_append, hearlier]
    simp
  rw [Loops.map_eq_of_forall₂ (h.tileOf_of_initializeTiles htiles) hcount,
    sum_tileLoops (hits op.loopSize N mapping.tileInLoop.N n)
      (hits op.loopSize M mapping.tileInLoop.M m)
      (fun c => if c + 1 = mapping.tileOutLoop.C then 1 else 0),
    h.cut.cutN.sum_hits h.loopSize_pos, h.cut.cutM.sum_hits h.loopSize_pos, hlast]
  split <;> split <;> simp_all

/-! ## The tiles together -/

theorem length_tileLoops : (tileLoops mapping).length =
    mapping.tileOutLoop.N * mapping.tileOutLoop.M * mapping.tileOutLoop.C := by
  simp [tileLoops, blockLoops, reductionLoop, List.length_flatMap]

theorem coveredOnce (h : op.Tiling mapping layout N C M) {tiles : List Tile}
    (htiles : op.initializeTiles mapping = some tiles) : op.CoveredOnce mapping N C M tiles := by
  have hall := h.tileOf_of_initializeTiles htiles
  have htile := h.inLoops_of_initializeTiles htiles
  have hmovouts := fun tile hmem => (h.filter_sections (htile tile hmem).2).2
  refine ⟨h.work htiles, hmovouts, h.storedOnce htiles, ?_, ?_, ?_, ?_⟩
  · intro tile hmem i hi hopcode
    have hin : i ∈ tile.instructions.filter (·.opcode = .MOVOUT) :=
      List.mem_filter.mpr ⟨hi, by simpa using hopcode⟩
    obtain ⟨p, hp, -⟩ := Loops.exists_of_forall₂_right (hmovouts tile hmem) hin
    exact ((h.mem_storeSteps (htile tile hmem).1).mp hp).1
  · rw [← hall.length_eq, length_tileLoops]
  · exact fun tile hmem => h.ne_nil (htile tile hmem).1 (htile tile hmem).2
  · simp only [List.forall_mem_cons, List.not_mem_nil, false_implies, implies_true, and_true]
    exact ⟨⟨h.cut.cutN.inner_pos, h.cut.cutN.dvd⟩,
      ⟨h.cut.cutC.inner_pos, h.cut.cutC.dvd⟩, h.cut.cutM.inner_pos, h.cut.cutM.dvd⟩

end Tiling

/-- Two cores of four elements, and two numbers an access. -/
def smallNode : Node where
  config := {
    numCores := 2
    coreConfig := fun _ => { coreWidth := 2, coreHeight := 2 }
    dramChannels := 1
    dramReqSize := 8 }
  id := 1
  inputs := [0, 256, 512]
  outputs := [768]

def smallGemm : GemmWS :=
  { smallNode with inputShape := [3, 5], weightShape := [5, 3], outputShape := [3, 3] }

/-- A column of two numbers, kept as a row, times a row of two. -/
def transposedGemm : GemmWS :=
  { smallNode with inputShape := [1, 2], weightShape := [1, 2], outputShape := [2, 2] }

end GemmWS

end OnnxSim
