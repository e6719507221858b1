import OnnxSim.Lib.Loops
import OnnxSim.Operations.ConvMapping
import OnnxSim.Operations.ConvWS

/-!
# What the tiling of a convolution makes

The key under which `initialize_tiles` asks for its mapping, and what its loops produce with a mapping
that cuts the dimensions of the key: one tile a turn (`ConvWS.tileOf_of_initializeTiles`), with the
sections of `initialize_instructions` (`ConvWS.Made`), whose loops over a dimension make up what the tile
has of it (`ConvWS.tiles_dimSteps`).
-/

namespace OnnxSim

open Blocks (Tiles)

namespace ConvWS

variable {op : ConvWS} {mapping : Mapping} {tile : Tile}

/-- The key of the mapping. -/
def key (op : ConvWS) : MappingKey where
  N := op.convOutShape.getD 0 0
  C := op.weightShape.getD 1 0
  M := op.weightShape.getD 0 0
  S := op.weightShape.getD 2 0
  R := op.weightShape.getD 3 0
  Q := op.convOutShape.getD op.hdim 0
  P := op.convOutShape.getD op.wdim 0
  padding := op.pads.getD 0 0
  stride := op.strides.getD 0 0
  targetCore := op.targetCore

/-! ## The loops of a tile -/

/-- The steps of a loop that is cut at the end of the layer. -/
theorem filter_steps {step : Nat} (hstep : 0 < step) (len offset total : Nat) :
    (steps len step).filter (fun i => i + offset < total) =
      steps (min len (total - offset)) step := by
  have hsorted : ∀ bound, (steps bound step).Pairwise (· < ·) := fun bound =>
    List.pairwise_map.mpr (List.pairwise_lt_range.imp fun hlt => Nat.mul_lt_mul_of_pos_right hlt hstep)
  refine ((hsorted len).filter _).eq_of_mem_iff (hsorted _) fun i => ?_
  rw [List.mem_filter, mem_steps hstep, mem_steps hstep, decide_eq_true_eq]
  omega

/-- The steps of a loop, as those of a loop over what the tile has of the dimension. -/
theorem dimSteps_eq {step : Nat} (hstep : 0 < step) (len offset total : Nat) :
    dimSteps len offset total step = (steps (min len (total - offset)) step).map fun i =>
      (i, min (min len (total - offset) - i) step) := by
  unfold dimSteps
  rw [filter_steps hstep]
  refine List.map_congr_left fun i _ => ?_
  rw [Prod.mk.injEq]
  omega

theorem tiles_dimSteps {step : Nat} (hstep : 0 < step) (len offset total : Nat) :
    Tiles 0 (dimSteps len offset total step) (min len (total - offset)) := by
  rw [dimSteps_eq hstep]
  exact tiles_steps hstep

/-- The loop makes up what the tile has of the dimension. -/
theorem sum_dimSteps {step : Nat} (hstep : 0 < step) (len offset total : Nat) :
    ((dimSteps len offset total step).map (·.2)).sum = min len (total - offset) := by
  have hsum := (tiles_dimSteps hstep len offset total).sum
  rwa [Nat.zero_add] at hsum

/-! ## The sections of a tile -/

/-- What `initialize_instructions` makes of a tile in the loops of the layer. -/
structure Made (op : ConvWS) (mapping : Mapping) (tile : Tile) (is : List Instruction) : Prop where
  loopSize_pos : 0 < op.loopSize
  qLoopSize_pos : 0 < op.qLoopSize
  pLoopSize_pos : 0 < op.pLoopSize
  strideH_pos : 0 < op.strides.getD 0 0
  strideW_pos : 0 < op.strides.getD 1 0
  sections : is = op.activationMovin tile mapping ::
    (op.weightLoop tile mapping).zipIdx.map (op.weightMovin tile mapping) ++
      (op.weightLoop tile mapping).zipIdx.flatMap (op.computes tile mapping) ++
        op.stores tile mapping

theorem made_of_initializeInstructions {is : List Instruction}
    (hin : inRange tile mapping = true)
    (h : op.initializeInstructions tile mapping = some is) : op.Made mapping tile is := by
  unfold initializeInstructions at h
  rw [if_pos hin] at h
  simp only at h
  split at h
  · cases h
  · rename_i hpos
    split at h
    · simp only [not_or, ← Nat.pos_iff_ne_zero] at hpos
      obtain ⟨hloop, hq, hp, hH, hW⟩ := hpos
      exact ⟨hloop, hq, hp, hH, hW, (Option.some.inj h).symm⟩
    · cases h

theorem opcode_of_computes {it : ((Nat × Nat) × Nat × Nat × (Nat × Nat)) × Nat} {i : Instruction}
    (h : i ∈ op.computes tile mapping it) : i.opcode = .GEMM ∨ i.opcode = .GEMM_PRELOAD := by
  simp only [computes, List.mem_flatMap, List.mem_map] at h
  obtain ⟨n, -, q, -, p, -, rfl⟩ := h
  simp only
  split
  · exact .inr rfl
  · exact .inl rfl

theorem opcode_of_stores {i : Instruction} (h : i ∈ op.stores tile mapping) :
    i.opcode = .MOVOUT ∨ i.opcode = .MOVOUT_POOL := by
  unfold stores at h
  simp only at h
  split at h
  · simp only [List.mem_flatMap, List.mem_map] at h
    obtain ⟨n, -, q, -, p, -, m, -, rfl⟩ := h
    unfold movout
    simp only
    split
    · exact .inr rfl
    · exact .inl rfl
  · cases h

/-! ## The loops of `initialize_tiles` -/

/-- The turns of the loops of `initialize_tiles`. -/
def tileLoops (mapping : Mapping) : List ((Nat × Nat × Nat × Nat) × Nat × Nat × Nat) :=
  (blockLoops mapping).flatMap (reductionLoop mapping)

theorem mem_tileLoops {n p q m s r c : Nat} :
    ((n, p, q, m), s, r, c) ∈ tileLoops mapping ↔
      (n < mapping.tileOutLoop.N ∧ p < mapping.tileOutLoop.P ∧ q < mapping.tileOutLoop.Q ∧
        m < mapping.tileOutLoop.M) ∧
        s < mapping.tileOutLoop.S ∧ r < mapping.tileOutLoop.R ∧ c < mapping.tileOutLoop.C := by
  simp [tileLoops, blockLoops, reductionLoop]

/-- The tile of a turn, without its instructions. -/
def freshTile (op : ConvWS) (coreId : Int) (loop : (Nat × Nat × Nat × Nat) × Nat × Nat × Nat) :
    Tile where
  status := .INITIALIZED
  layerId := op.id
  batch := loop.1.1
  Q := loop.1.2.2.1
  P := loop.1.2.1
  M := loop.1.2.2.2
  C := loop.2.2.2
  S := loop.2.1
  R := loop.2.2.1
  accum := loop.2.2.2 ≠ 0 ∨ loop.2.2.1 ≠ 0 ∨ loop.2.1 ≠ 0
  coreId := coreId

/-- The tile of a turn. -/
structure TileOf (op : ConvWS) (mapping : Mapping) (loop : (Nat × Nat × Nat × Nat) × Nat × Nat × Nat)
    (tile : Tile) : Prop where
  batch_eq : tile.batch = loop.1.1
  P_eq : tile.P = loop.1.2.1
  Q_eq : tile.Q = loop.1.2.2.1
  M_eq : tile.M = loop.1.2.2.2
  S_eq : tile.S = loop.2.1
  R_eq : tile.R = loop.2.2.1
  C_eq : tile.C = loop.2.2.2
  instructions : op.initializeInstructions tile mapping = some tile.instructions

theorem initializeTile_eq (op : ConvWS) (mapping : Mapping) (st : Int × List Tile)
    (loop : (Nat × Nat × Nat × Nat) × Nat × Nat × Nat) :
    ∃ coreId, op.initializeTile mapping st loop =
      (op.initializeInstructions (op.freshTile coreId loop) mapping).bind fun is =>
        if is = [] then some (coreId, st.2)
        else some (coreId, st.2 ++ [{ op.freshTile coreId loop with instructions := is }]) :=
  ⟨_, rfl⟩

theorem inRange_of_lt (hcuts : Cuts op.key mapping) (hN : tile.batch < mapping.tileOutLoop.N)
    (hP : tile.P < mapping.tileOutLoop.P) (hQ : tile.Q < mapping.tileOutLoop.Q)
    (hM : tile.M < mapping.tileOutLoop.M) (hS : tile.S < mapping.tileOutLoop.S)
    (hR : tile.R < mapping.tileOutLoop.R) (hC : tile.C < mapping.tileOutLoop.C) :
    inRange tile mapping = true := by
  unfold inRange
  rw [hcuts.total, decide_eq_true_eq]
  exact ⟨hcuts.N.start_lt _ hN, hcuts.M.start_lt _ hM, hcuts.Q.start_lt _ hQ,
    hcuts.P.start_lt _ hP, hcuts.C.start_lt _ hC, hcuts.S.start_lt _ hS, hcuts.R.start_lt _ hR⟩

theorem TileOf.made (hcuts : Cuts op.key mapping)
    {loop : (Nat × Nat × Nat × Nat) × Nat × Nat × Nat} (hloop : loop ∈ tileLoops mapping)
    (h : op.TileOf mapping loop tile) : op.Made mapping tile tile.instructions := by
  obtain ⟨⟨hn, hp, hq, hm⟩, hs, hr, hc⟩ := mem_tileLoops.mp hloop
  exact made_of_initializeInstructions (inRange_of_lt hcuts (h.batch_eq ▸ hn) (h.P_eq ▸ hp)
    (h.Q_eq ▸ hq) (h.M_eq ▸ hm) (h.S_eq ▸ hs) (h.R_eq ▸ hr) (h.C_eq ▸ hc)) h.instructions

theorem foldlM_initializeTile (hcuts : Cuts op.key mapping)
    {loops : List ((Nat × Nat × Nat × Nat) × Nat × Nat × Nat)}
    (hloops : ∀ loop ∈ loops, loop ∈ tileLoops mapping) {st st' : Int × List Tile}
    (hst : loops.foldlM (op.initializeTile mapping) st = some st') :
    ∃ tiles, st'.2 = st.2 ++ tiles ∧ List.Forall₂ (op.TileOf mapping) loops tiles := by
  induction loops generalizing st with
  | nil =>
    obtain rfl := Option.some.inj hst
    exact ⟨[], (List.append_nil _).symm, .nil⟩
  | cons loop loops ih =>
    rw [List.foldlM_cons] at hst
    obtain ⟨st₁, hst₁, hst⟩ := Option.bind_eq_some_iff.mp hst
    obtain ⟨coreId, heq⟩ := op.initializeTile_eq mapping st loop
    rw [heq] at hst₁
    obtain ⟨is, his, hst₁⟩ := Option.bind_eq_some_iff.mp hst₁
    obtain ⟨⟨hn, hp, hq, hm⟩, hs, hr, hc⟩ := mem_tileLoops.mp (hloops loop List.mem_cons_self)
    have hrange : inRange (op.freshTile coreId loop) mapping = true :=
      inRange_of_lt hcuts hn hp hq hm hs hr hc
    have hmade := made_of_initializeInstructions hrange his
    rw [if_neg (by rw [hmade.sections]; simp)] at hst₁
    obtain rfl := Option.some.inj hst₁
    obtain ⟨tiles, htiles, hall⟩ := ih (fun loop hloop => hloops loop (List.mem_cons_of_mem _ hloop))
      hst
    refine ⟨_, by rw [htiles, List.append_assoc]; rfl, .cons ?_ hall⟩
    exact ⟨rfl, rfl, rfl, rfl, rfl, rfl, rfl, his⟩

/-- What `initialize_tiles` checks, and the tiles of its loops. -/
theorem of_initializeTiles {tiles : List Tile} (h : op.initializeTiles mapping = some tiles) :
    (1 < mapping.tileInLoop.C ∧ op.poolFits mapping = true) ∧ tiles ≠ [] ∧
      ∃ coreId, (tileLoops mapping).foldlM (op.initializeTile mapping) (-1, []) =
        some (coreId, tiles) := by
  unfold initializeTiles at h
  split at h
  · cases h
  · rename_i hasserted
    obtain ⟨st, hst, h⟩ := Option.bind_eq_some_iff.mp h
    split at h
    · cases h
    · rename_i hne
      obtain rfl := Option.some.inj h
      rw [not_or, Nat.not_le, Bool.not_eq_true, Bool.not_eq_false'] at hasserted
      exact ⟨hasserted, hne, st.1, hst⟩

/-- The tiles of `initialize_tiles`, one for each turn of its loops. -/
theorem tileOf_of_initializeTiles (hcuts : Cuts op.key mapping) {tiles : List Tile}
    (h : op.initializeTiles mapping = some tiles) :
    List.Forall₂ (op.TileOf mapping) (tileLoops mapping) tiles := by
  obtain ⟨-, -, coreId, hst⟩ := of_initializeTiles h
  obtain ⟨tiles', heq, hall⟩ := foldlM_initializeTile hcuts (fun _ hloop => hloop) hst
  rw [List.nil_append] at heq
  obtain rfl : tiles = tiles' := heq
  exact hall

/-- There are tiles only if each of the outer loops makes a turn. -/
theorem turns_of_initializeTiles {tiles : List Tile} (h : op.initializeTiles mapping = some tiles) :
    mapping.Turns := by
  obtain ⟨-, hne, coreId, hst⟩ := of_initializeTiles h
  cases hloops : tileLoops mapping with
  | nil =>
    rw [hloops] at hst
    exact absurd (congrArg Prod.snd (Option.some.inj hst)).symm hne
  | cons loop loops =>
    have hloop : loop ∈ tileLoops mapping := hloops ▸ List.mem_cons_self
    obtain ⟨⟨hn, hp, hq, hm⟩, hs, hr, hc⟩ := mem_tileLoops.mp hloop
    unfold Mapping.Turns
    omega

end ConvWS

end OnnxSim
