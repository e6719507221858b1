import Mathlib.Algebra.Order.GroupWithZero.Basic
import Mathlib.Algebra.Order.Ring.Nat
import OnnxSim.Operations.ConvTiles

/-!
# The work of a convolution

The loops over the output, its channels and those of the input are clipped at the end of the layer, but
those over the rows and the columns of the kernel are not: with the mapping of `calc_conv_mapping` the
tiles together do the work of the layer once, exactly if their share of the kernel divides it
(`ConvWS.work_eq_iff`).
-/

namespace OnnxSim

namespace ConvWS

variable {op : ConvWS} {mapping : Mapping} {tile : Tile}

/-- The multiplications that instructions do. -/
def macs (is : List Instruction) : Nat :=
  ((is.filter fun i => i.opcode = .GEMM ∨ i.opcode = .GEMM_PRELOAD).map fun i =>
    i.tileM * i.tileK * i.tileN).sum

/-! ## The work of a tile -/

/-- The opcode of an instruction says whether it computes. -/
theorem Made.filter_computes {is : List Instruction} (h : op.Made mapping tile is) :
    is.filter (fun i => i.opcode = .GEMM ∨ i.opcode = .GEMM_PRELOAD) =
      (op.weightLoop tile mapping).zipIdx.flatMap (op.computes tile mapping) := by
  rw [h.sections, List.filter_append, List.filter_append, List.filter_eq_nil_iff.mpr,
    List.filter_eq_self.mpr, List.filter_eq_nil_iff.mpr, List.nil_append, List.append_nil]
  · intro i hi
    obtain hout | hout := opcode_of_stores hi <;> simp [hout]
  · intro i hi
    obtain ⟨it, -, hi⟩ := List.mem_flatMap.mp hi
    simpa using opcode_of_computes hi
  · intro i hi
    obtain rfl | hi := List.mem_cons.mp hi
    · simp [activationMovin]
    · obtain ⟨it, -, rfl⟩ := List.mem_map.mp hi
      simp [weightMovin]

theorem sum_computes (m c : Nat × Nat) (s r idx : Nat) :
    ((op.computes tile mapping ((m, s, r, c), idx)).map fun i => i.tileM * i.tileK * i.tileN).sum =
      m.2 * c.2 * (mapping.tileInLoop.N * (((op.qSteps tile mapping).map (·.2)).sum *
        ((op.pSteps tile mapping).map (·.2)).sum)) := by
  have hrow : ∀ q : Nat × Nat, ((op.pSteps tile mapping).map fun p =>
      m.2 * c.2 * (p.2 * q.2)).sum =
        m.2 * c.2 * (((op.pSteps tile mapping).map (·.2)).sum * q.2) := by
    intro q
    rw [List.sum_map_mul_left, List.sum_map_mul_right]
  unfold computes
  simp only [Blocks.sum_flatMap, List.map_map, Function.comp_def, hrow, List.sum_map_mul_left]
  rw [List.map_const', List.sum_replicate_nat, List.length_range]
  ac_rfl

/-- The work of a tile. Of the kernel it is what the mapping gives to a tile, whatever is left. -/
theorem Made.macs_eq {is : List Instruction} (h : op.Made mapping tile is)
    (hcuts : Cuts op.key mapping) :
    let in' := mapping.tileInLoop
    macs is = in'.N * min in'.P (op.key.P - tile.P * in'.P) * min in'.Q (op.key.Q - tile.Q * in'.Q) *
      min in'.M (op.key.M - tile.M * in'.M) * in'.S * in'.R *
        min in'.C (op.key.C - tile.C * in'.C) := by
  have hsteps : ((op.weightLoop tile mapping).zipIdx.map fun it =>
      ((op.computes tile mapping it).map fun i => i.tileM * i.tileK * i.tileN).sum) =
        (op.weightLoop tile mapping).map fun it => it.1.2 * it.2.2.2.2 * (mapping.tileInLoop.N *
          (((op.qSteps tile mapping).map (·.2)).sum * ((op.pSteps tile mapping).map (·.2)).sum)) := by
    conv_rhs => rw [← List.zipIdx_map_fst 0 (op.weightLoop tile mapping)]
    rw [List.map_map]
    exact List.map_congr_left fun it _ => sum_computes it.1.1 it.1.2.2.2 it.1.2.1 it.1.2.2.1 it.2
  unfold macs
  rw [h.filter_computes, Blocks.sum_flatMap, hsteps]
  unfold weightLoop
  simp only [Blocks.sum_flatMap, List.map_map, Function.comp_def, List.sum_map_mul_left,
    List.sum_map_mul_right, List.map_const', List.sum_replicate_nat, List.length_range]
  rw [qSteps, pSteps, mSteps, cSteps, sum_dimSteps h.qLoopSize_pos, sum_dimSteps h.pLoopSize_pos,
    sum_dimSteps h.loopSize_pos, sum_dimSteps h.loopSize_pos, hcuts.total]
  ac_rfl

/-! ## All tiles -/

/-- A sum over all tiles of a product, one factor for each dimension. -/
theorem sum_tileLoops (fN fP fQ fM fS fR fC : Nat → Nat) :
    ((tileLoops mapping).map fun loop => fN loop.1.1 * fP loop.1.2.1 * fQ loop.1.2.2.1 *
      fM loop.1.2.2.2 * fS loop.2.1 * fR loop.2.2.1 * fC loop.2.2.2).sum =
        ((List.range mapping.tileOutLoop.N).map fN).sum *
          ((List.range mapping.tileOutLoop.P).map fP).sum *
          ((List.range mapping.tileOutLoop.Q).map fQ).sum *
          ((List.range mapping.tileOutLoop.M).map fM).sum *
          ((List.range mapping.tileOutLoop.S).map fS).sum *
          ((List.range mapping.tileOutLoop.R).map fR).sum *
          ((List.range mapping.tileOutLoop.C).map fC).sum := by
  unfold tileLoops blockLoops reductionLoop
  simp only [Blocks.sum_flatMap, List.map_map, Function.comp_def, List.sum_map_mul_left,
    List.sum_map_mul_right]

theorem sum_macs (hcuts : Cuts op.key mapping) (hbatch : mapping.tileInLoop.N = 1)
    {tiles : List Tile} (h : op.initializeTiles mapping = some tiles) :
    (tiles.map fun tile => macs tile.instructions).sum =
      op.key.N * op.key.P * op.key.Q * op.key.M *
        (mapping.tileOutLoop.S * mapping.tileInLoop.S) *
          (mapping.tileOutLoop.R * mapping.tileInLoop.R) * op.key.C := by
  have hmacs : ∀ loop ∈ tileLoops mapping, ∀ tile, op.TileOf mapping loop tile →
      macs tile.instructions = mapping.tileInLoop.N *
        min mapping.tileInLoop.P (op.key.P - loop.1.2.1 * mapping.tileInLoop.P) *
        min mapping.tileInLoop.Q (op.key.Q - loop.1.2.2.1 * mapping.tileInLoop.Q) *
        min mapping.tileInLoop.M (op.key.M - loop.1.2.2.2 * mapping.tileInLoop.M) *
        mapping.tileInLoop.S * mapping.tileInLoop.R *
        min mapping.tileInLoop.C (op.key.C - loop.2.2.2 * mapping.tileInLoop.C) := by
    intro loop hloop tile htile
    rw [(htile.made hcuts hloop).macs_eq hcuts, htile.P_eq, htile.Q_eq, htile.M_eq, htile.C_eq]
  have hconst : ∀ n k : Nat, ((List.range n).map fun _ => k).sum = n * k := by
    intro n k
    rw [List.map_const', List.sum_replicate_nat, List.length_range]
  have hN : mapping.tileOutLoop.N * mapping.tileInLoop.N = op.key.N :=
    hcuts.N.mul_eq_iff.mpr (hbatch ▸ Nat.one_dvd _)
  rw [Loops.map_eq_of_forall₂ (tileOf_of_initializeTiles hcuts h) hmacs,
    sum_tileLoops (fun _ => mapping.tileInLoop.N)
      (fun t => min mapping.tileInLoop.P (op.key.P - t * mapping.tileInLoop.P))
      (fun t => min mapping.tileInLoop.Q (op.key.Q - t * mapping.tileInLoop.Q))
      (fun t => min mapping.tileInLoop.M (op.key.M - t * mapping.tileInLoop.M))
      (fun _ => mapping.tileInLoop.S) (fun _ => mapping.tileInLoop.R)
      (fun t => min mapping.tileInLoop.C (op.key.C - t * mapping.tileInLoop.C)),
    hconst, hconst, hconst, hcuts.P.sum_min, hcuts.Q.sum_min, hcuts.M.sum_min, hcuts.C.sum_min, hN]

/-- With the mapping of `calc_conv_mapping` the tiles do the work of the convolution once, exactly if the
rows and columns of the kernel that a tile takes divide those of the kernel. -/
theorem work_eq_iff (op : ConvWS) (fuel : Nat) (mapping : Mapping) (tiles : List Tile)
    (hconv : op.key.IsConv)
    (hwords : ∀ d ∈ [op.key.N, op.key.C, op.key.M, op.key.S, op.key.P], d < 2 ^ 32)
    (hmapping : calcConvMapping op.config fuel op.key = some mapping)
    (htiles : op.initializeTiles mapping = some tiles) :
    (tiles.map fun tile => macs tile.instructions).sum =
        op.key.N * op.key.M * op.key.C * op.key.S * op.key.R * op.key.P * op.key.Q ↔
      mapping.tileInLoop.S ∣ op.key.S ∧ mapping.tileInLoop.R ∣ op.key.R := by
  have hturns := turns_of_initializeTiles htiles
  obtain ⟨hcuts, hbatch⟩ := calcConvMapping_cuts hconv hwords hmapping hturns
  obtain ⟨hN, hC, hM, hS, hR, hQ, hP⟩ := hturns
  have hpos : 0 < op.key.N * op.key.P * op.key.Q * op.key.M * op.key.C :=
    Nat.mul_pos (Nat.mul_pos (Nat.mul_pos (Nat.mul_pos (hcuts.N.total_pos hN)
      (hcuts.P.total_pos hP)) (hcuts.Q.total_pos hQ)) (hcuts.M.total_pos hM)) (hcuts.C.total_pos hC)
  have hkernel : op.key.S * op.key.R = mapping.tileOutLoop.S * mapping.tileInLoop.S *
      (mapping.tileOutLoop.R * mapping.tileInLoop.R) ↔
        op.key.S = mapping.tileOutLoop.S * mapping.tileInLoop.S ∧
          op.key.R = mapping.tileOutLoop.R * mapping.tileInLoop.R :=
    mul_eq_mul_iff_eq_and_eq_of_pos hcuts.S.end_le hcuts.R.end_le (hcuts.S.total_pos hS)
      (Nat.mul_pos hR hcuts.R.inner_pos)
  rw [sum_macs hcuts hbatch htiles, ← hcuts.S.mul_eq_iff, ← hcuts.R.mul_eq_iff]
  calc
    _ ↔ op.key.N * op.key.P * op.key.Q * op.key.M * op.key.C *
          (mapping.tileOutLoop.S * mapping.tileInLoop.S *
            (mapping.tileOutLoop.R * mapping.tileInLoop.R)) =
        op.key.N * op.key.P * op.key.Q * op.key.M * op.key.C * (op.key.S * op.key.R) :=
      iff_of_eq (congrArg₂ Eq (by ac_rfl) (by ac_rfl))
    _ ↔ op.key.S * op.key.R = mapping.tileOutLoop.S * mapping.tileInLoop.S *
          (mapping.tileOutLoop.R * mapping.tileInLoop.R) := by
      rw [Nat.mul_right_inj hpos.ne', eq_comm]
    _ ↔ _ := by
      rw [hkernel, eq_comm, eq_comm (a := op.key.R)]

/-- A core of 16 x 16 elements with 1 KiB for the inputs and the weights. -/
def smallNode : Node where
  config := {
    numCores := 1
    coreConfig := fun _ => { coreWidth := 16, coreHeight := 16, spadSize := 1, accumSpadSize := 1 }
    dramChannels := 1
    dramReqSize := 32
    precision := 2 }
  id := 1
  inputs := [0, 256]
  outputs := [768]

/-- Two channels under a kernel of `k` rows and columns, as large as the input. -/
def wholeConv (k : Nat) : ConvWS :=
  { smallNode with
    kernelShape := [k, k]
    strides := [1, 1]
    dilations := [1, 1]
    pads := [0, 0, 0, 0]
    inputShape := [1, k, k, 2]
    weightShape := [2, 2, k, k]
    convOutShape := [1, 1, 1, 2] }

/-- The mapping that `calc_conv_mapping` finds for `wholeConv`, with the rows and columns of the kernel that
a tile takes. -/
def wholeMapping (k inner : Nat) : Mapping where
  totalLoop := { N := 1, C := 2, M := 2, S := k, R := k, Q := 1, P := 1 }
  tileInLoop := { N := 1, C := 2, M := 2, S := inner, R := inner, Q := 1, P := 1 }
  tileOutLoop := { N := 1, C := 1, M := 1, S := ceilDiv k inner, R := ceilDiv k inner, Q := 1, P := 1 }

theorem work_eq_iff_evenKernel :
    calcConvMapping smallNode.config 20 (wholeConv 4).key = some (wholeMapping 4 2) ∧
      ∃ tiles, (wholeConv 4).initializeTiles (wholeMapping 4 2) = some tiles ∧
        (tiles.map fun tile => macs tile.instructions).sum = 1 * 2 * 2 * 4 * 4 * 1 * 1 := by
  have hmapping : calcConvMapping smallNode.config 20 (wholeConv 4).key = some (wholeMapping 4 2) := by
    decide +kernel
  obtain ⟨tiles, htiles⟩ := Option.isSome_iff_exists.mp
    (show ((wholeConv 4).initializeTiles (wholeMapping 4 2)).isSome = true by decide +kernel)
  exact ⟨hmapping, tiles, htiles, (work_eq_iff (wholeConv 4) 20 (wholeMapping 4 2) tiles (by decide)
    (by decide) hmapping htiles).mpr ⟨by decide, by decide⟩⟩

/-- A tile takes two of the three rows and columns of the kernel, and the second tile goes on past its
end. -/
theorem oddKernel_overcounted : (wholeConv 3).key.IsConv ∧
    calcConvMapping smallNode.config 20 (wholeConv 3).key = some (wholeMapping 3 2) ∧
      ∃ tiles, (wholeConv 3).initializeTiles (wholeMapping 3 2) = some tiles ∧
        (tiles.map fun tile => macs tile.instructions).sum = 64 ∧ 1 * 2 * 2 * 3 * 3 * 1 * 1 ≠ 64 := by
  refine ⟨by decide, by decide +kernel, ?_⟩
  obtain ⟨tiles, htiles, hsum⟩ := Option.map_eq_some_iff.mp
    (show ((wholeConv 3).initializeTiles (wholeMapping 3 2)).map (fun tiles =>
      (tiles.map fun tile => macs tile.instructions).sum) = some 64 by decide +kernel)
  exact ⟨tiles, htiles, hsum, by decide⟩

end ConvWS

end OnnxSim
