import Mathlib.Data.List.TakeWhile
import OnnxSim.Lib.Blocks
import OnnxSim.Operations.Mapping

/-!
# The blocks of a dimension

The loops of a tiling run over a dimension in steps that are clipped at its end. Their blocks follow one
another (`tiles_blocksFrom`), and with what `gemm_mapping` returns those of all outer blocks together
make up the dimension (`CutInto.tiles_blocks`), whatever the heuristics have chosen.
-/

namespace OnnxSim

open Blocks (Tiles Mem)

/-! ## One dimension -/

/-- The blocks of a loop over `size` numbers from `o` on in steps of `dim`, clipped at `total`. -/
def blocksFrom (o dim total size : Nat) : List (Nat × Nat) :=
  ((steps size dim).takeWhile fun s => within (o + s) dim total ≠ 0).map
    fun s => (o + s, within (o + s) dim total)

theorem within_eq (o dim total : Nat) : within o dim total = min dim (total - o) := by
  unfold within
  split <;> omega

theorem steps_mul {dim : Nat} (hdim : 0 < dim) (q : Nat) :
    steps (q * dim) dim = (List.range q).map (· * dim) := by
  unfold steps
  have hq : (q * dim + dim - 1) / dim = q := by
    refine Nat.div_eq_of_lt_le ?_ ?_
    · omega
    · rw [Nat.add_mul]
      omega
  rw [hq]

theorem tiles_blocksFrom {dim size : Nat} (hdim : 0 < dim) (hdvd : dim ∣ size) (o total : Nat) :
    Tiles (min o total) (blocksFrom o dim total size) (min (o + size) total) := by
  obtain ⟨q, rfl⟩ := hdvd
  rw [Nat.mul_comm dim q]
  unfold blocksFrom
  rw [steps_mul hdim]
  induction q generalizing o with
  | zero => simp [Tiles]
  | succ q ih =>
    have hshift : ((List.range q).map (· + 1)).map (· * dim) =
        ((List.range q).map (· * dim)).map (dim + ·) := by
      rw [List.map_map, List.map_map]
      refine List.map_congr_left fun i _ => ?_
      simp only [Function.comp_apply, Nat.add_mul]
      omega
    have hend : o + (q + 1) * dim = o + dim + q * dim := by
      rw [Nat.add_mul]
      omega
    have hrest := ih (o + dim)
    rw [List.range_succ_eq_map, List.map_cons, Nat.zero_mul, hshift, List.takeWhile_cons, hend]
    by_cases hin : o < total
    · have hpos : within (o + 0) dim total ≠ 0 := by
        rw [within_eq]
        omega
      simp only [hpos, ne_eq, not_false_eq_true, decide_true, if_true, List.map_cons]
      refine ⟨by omega, by omega, ?_⟩
      have hnext : min o total + within (o + 0) dim total = min (o + dim) total := by
        rw [within_eq]
        omega
      rw [hnext, List.takeWhile_map, List.map_map]
      simpa only [Function.comp_def, ← Nat.add_assoc] using hrest
    · have hzero : within (o + 0) dim total = 0 := by
        rw [within_eq]
        omega
      simp only [hzero, ne_eq, not_true_eq_false, decide_false, Bool.false_eq_true, if_false,
        List.map_nil]
      show min o total = min (o + dim + q * dim) total
      omega

theorem steps_self {n : Nat} (h : 0 < n) : steps n n = [0] := by
  have hone := steps_mul h 1
  rw [Nat.one_mul] at hone
  rw [hone]
  simp

theorem mem_takeWhile_steps {o dim total size s : Nat} (hdim : 0 < dim) :
    s ∈ (steps size dim).takeWhile (fun s => within (o + s) dim total ≠ 0) ↔
      s < size ∧ dim ∣ s ∧ o + s < total := by
  have hle : (steps size dim).Pairwise fun a b => a ≤ b :=
    List.pairwise_map.mpr (List.pairwise_lt_range.imp fun hlt =>
      Nat.mul_le_mul_right dim (Nat.le_of_lt hlt))
  rw [Blocks.takeWhile_eq_filter (hle.imp ?_), List.mem_filter, mem_steps hdim, and_assoc]
  · simp only [within_eq, ne_eq, decide_eq_true_eq]
    refine and_congr_right fun _ => and_congr_right fun _ => ?_
    omega
  · intro a b hab
    simp only [within_eq, ne_eq, decide_eq_true_eq]
    omega

/-- The blocks of a whole loop. -/
theorem tiles_steps {dim total : Nat} (hdim : 0 < dim) :
    Tiles 0 ((steps total dim).map fun s => (s, min (total - s) dim)) total := by
  have hpad : total ≤ (total + dim - 1) / dim * dim := by
    have hmod := Nat.div_add_mod (total + dim - 1) dim
    have hlt := Nat.mod_lt (total + dim - 1) hdim
    rw [Nat.mul_comm] at hmod
    omega
  have hblocks := tiles_blocksFrom hdim (Nat.dvd_mul_left dim ((total + dim - 1) / dim)) 0 total
  have hall : blocksFrom 0 dim total ((total + dim - 1) / dim * dim) =
      (steps total dim).map fun s => (s, min (total - s) dim) := by
    have hsteps : steps ((total + dim - 1) / dim * dim) dim = steps total dim := by
      rw [steps_mul hdim]
      rfl
    unfold blocksFrom
    rw [hsteps, List.takeWhile_eq_self_iff.mpr]
    · refine List.map_congr_left fun s _ => ?_
      rw [Nat.zero_add, within_eq, Nat.min_comm]
    · intro s hs
      have hlt := ((mem_steps hdim).mp hs).1
      rw [within_eq]
      simp
      omega
  rw [hall] at hblocks
  simpa [Nat.min_eq_right hpad] using hblocks

/-! ## The mapping -/

namespace GemmMapping

theorem padUp_pos {dim x : Nat} (hdim : 0 < dim) (hx : 0 < x) : 0 < padUp dim x :=
  Nat.mul_pos (Nat.div_pos (by omega) hdim) hdim

theorem inner_pos {dim total : Nat} (hdim : 0 < dim) (htotal : 0 < total) (tiles : Nat) :
    0 < inner dim total tiles := by
  unfold inner
  split
  · exact padUp_pos hdim htotal
  · exact Nat.lt_of_lt_of_le hdim (Nat.le_max_left _ _)

theorem dvd_inner (dim total tiles : Nat) : dim ∣ inner dim total tiles := by
  unfold inner
  split
  · exact Nat.dvd_mul_left _ _
  · rcases Nat.le_total dim (padUp dim total / tiles / dim * dim) with hle | hle
    · rw [Nat.max_eq_right hle]
      exact Nat.dvd_mul_left _ _
    · rw [Nat.max_eq_left hle]

theorem le_ceilDiv_mul {a b : Nat} (hb : 0 < b) : a ≤ ceilDiv a b * b := by
  unfold ceilDiv
  have hmod := Nat.div_add_mod (a + b - 1) b
  have hlt := Nat.mod_lt (a + b - 1) hb
  rw [Nat.mul_comm] at hmod
  omega

theorem mul_lt_of_lt_ceilDiv {a b t : Nat} (hb : 0 < b) (ht : t < ceilDiv a b) : t * b < a := by
  have hlt := (Nat.lt_div_iff_mul_lt hb).mp ht
  omega

end GemmMapping

/-- One dimension of a mapping: `outer` blocks of `inner` numbers, the last of which ends at
`total`. -/
structure CutInto (dim total outer inner : Nat) : Prop where
  inner_pos : 0 < inner
  dvd : dim ∣ inner
  end_le : total ≤ outer * inner
  start_lt : ∀ t < outer, t * inner < total

/-- The numbers of the dimension in the outer block `t`. -/
def extent (dim total inner t : Nat) : Nat :=
  ((blocksFrom (t * inner) dim total inner).map (·.2)).sum

/-- How many blocks of the outer block `t` have `x`. -/
def hits (dim total inner x t : Nat) : Nat :=
  (blocksFrom (t * inner) dim total inner).countP fun block => decide (Mem x block)

namespace CutInto

variable {dim total outer inner : Nat}

/-- The blocks of all outer blocks. -/
theorem tiles_blocks (h : CutInto dim total outer inner) (hdim : 0 < dim) :
    Tiles 0 ((List.range outer).flatMap fun t => blocksFrom (t * inner) dim total inner) total := by
  have hblock : ∀ t < outer, Tiles (min (t * inner) total)
      (blocksFrom (t * inner) dim total inner) (min ((t + 1) * inner) total) := by
    intro t _
    rw [Nat.succ_mul]
    exact tiles_blocksFrom hdim h.dvd (t * inner) total
  have htiles := Tiles.flatMap (f := fun t => min (t * inner) total) hblock
  simpa [Nat.min_eq_right h.end_le] using htiles

theorem sum_extent (h : CutInto dim total outer inner) (hdim : 0 < dim) :
    ((List.range outer).map (extent dim total inner)).sum = total := by
  have hsum := (h.tiles_blocks hdim).sum
  rwa [Blocks.sum_flatMap, Nat.zero_add] at hsum

/-- Each number of the dimension is in one block. -/
theorem sum_hits (h : CutInto dim total outer inner) (hdim : 0 < dim) (x : Nat) :
    ((List.range outer).map (hits dim total inner x)).sum = if x < total then 1 else 0 := by
  have hcount := (h.tiles_blocks hdim).countP x
  rw [List.countP_flatMap] at hcount
  simp only [Nat.zero_le, true_and] at hcount
  exact hcount

/-- An outer block is one block of its own. -/
theorem whole (h : CutInto dim total outer inner) : CutInto inner total outer inner :=
  { h with dvd := Nat.dvd_refl inner }

theorem pos (h : CutInto dim total outer inner) (htotal : 0 < total) : 0 < outer := by
  rcases Nat.eq_zero_or_pos outer with rfl | hpos
  · have hend := h.end_le
    omega
  · exact hpos

theorem total_pos (h : CutInto dim total outer inner) (houter : 0 < outer) : 0 < total :=
  Nat.lt_of_le_of_lt (Nat.zero_le _) (h.start_lt 0 houter)

/-- The last outer block is the one that reaches the end. -/
theorem end_le_iff (h : CutInto dim total outer inner) {t : Nat} (ht : t < outer) :
    total ≤ t * inner + inner ↔ t + 1 = outer := by
  constructor
  · intro hend
    by_contra hne
    have hlt := h.start_lt (t + 1) (by omega)
    rw [Nat.succ_mul] at hlt
    omega
  · rintro rfl
    rw [← Nat.succ_mul]
    exact h.end_le

/-- The outer blocks are all full exactly if their size divides the dimension. -/
theorem mul_eq_iff (h : CutInto dim total outer inner) : outer * inner = total ↔ inner ∣ total := by
  constructor
  · rintro rfl
    exact Nat.dvd_mul_left inner outer
  · rintro ⟨k, rfl⟩
    have hend := Nat.le_of_mul_le_mul_left (Nat.mul_comm outer inner ▸ h.end_le) h.inner_pos
    refine Nat.le_antisymm ?_ h.end_le
    rw [Nat.mul_comm inner k]
    refine Nat.mul_le_mul_right inner ?_
    by_contra hlt
    have hstart := h.start_lt k (by omega)
    rw [Nat.mul_comm inner k] at hstart
    omega

/-- Where a number of the dimension lies: in an outer block, and there in a step of the inner loop. -/
theorem locate (h : CutInto dim total outer inner) {x : Nat} (hx : x < total) :
    x / inner < outer ∧ x % inner / dim * dim < inner ∧
      x / inner * inner + x % inner / dim * dim + x % dim = x := by
  have hinner := h.inner_pos
  have hlt := Nat.mod_lt x hinner
  have hstep := Nat.div_add_mod' (x % inner) dim
  have houter := Nat.div_add_mod' x inner
  rw [Nat.mod_mod_of_dvd x h.dvd] at hstep
  have hend := h.end_le
  exact ⟨(Nat.div_lt_iff_lt_mul hinner).mpr (by omega), by omega, by omega⟩

end CutInto

theorem blocksFrom_self {o inner total : Nat} (hinner : 0 < inner) (ho : o < total) :
    blocksFrom o inner total inner = [(o, within o inner total)] := by
  have hpos : within (o + 0) inner total ≠ 0 := by
    rw [within_eq]
    omega
  unfold blocksFrom
  rw [steps_self hinner, List.takeWhile_cons_of_pos (by simpa using hpos)]
  rfl

/-- An outer block that is one block of its own has what is left of the dimension. -/
theorem CutInto.extent_self {dim total outer inner : Nat} (h : CutInto dim total outer inner) {t : Nat}
    (ht : t < outer) : extent inner total inner t = min inner (total - t * inner) := by
  unfold extent
  rw [blocksFrom_self h.inner_pos (h.start_lt t ht), within_eq]
  simp

/-- What the outer blocks have of the dimension. -/
theorem CutInto.sum_min {dim total outer inner : Nat} (h : CutInto dim total outer inner) :
    ((List.range outer).map fun t => min inner (total - t * inner)).sum = total := by
  have heach : (List.range outer).map (extent inner total inner) =
      (List.range outer).map fun t => min inner (total - t * inner) :=
    List.map_congr_left fun t ht => h.extent_self (List.mem_range.mp ht)
  rw [← heach]
  exact h.whole.sum_extent h.inner_pos

theorem cutInto_inner {dim total : Nat} (hdim : 0 < dim) (htotal : 0 < total) (tiles : Nat) :
    CutInto dim total (max 1 (GemmMapping.ceilDiv total (GemmMapping.inner dim total tiles)))
      (GemmMapping.inner dim total tiles) := by
  have hpos := GemmMapping.inner_pos hdim htotal tiles
  have hone : max 1 (GemmMapping.ceilDiv total (GemmMapping.inner dim total tiles)) =
      GemmMapping.ceilDiv total (GemmMapping.inner dim total tiles) := by
    refine Nat.max_eq_right (Nat.div_pos ?_ hpos)
    omega
  rw [hone]
  exact ⟨hpos, GemmMapping.dvd_inner dim total tiles, GemmMapping.le_ceilDiv_mul hpos,
    fun t ht => GemmMapping.mul_lt_of_lt_ceilDiv hpos ht⟩

/-- A mapping cuts the three dimensions of a multiplication. -/
structure Cut (dim N C M : Nat) (mapping : Mapping) : Prop where
  totalN : mapping.totalLoop.N = N
  totalC : mapping.totalLoop.C = C
  totalM : mapping.totalLoop.M = M
  cutN : CutInto dim N mapping.tileOutLoop.N mapping.tileInLoop.N
  cutC : CutInto dim C mapping.tileOutLoop.C mapping.tileInLoop.C
  cutM : CutInto dim M mapping.tileOutLoop.M mapping.tileInLoop.M

/-- What `gemm_mapping` asserts. -/
theorem gemmMapping_asserts {config : SimulationConfig} {key : MappingKey}
    {mapping : Mapping} (h : gemmMapping config key = some mapping) :
    (config.tilerCore key.targetCore).dim = (config.tilerCore key.targetCore).width ∧
      0 < (config.tilerCore key.targetCore).dim ∧ 0 < config.precision := by
  unfold gemmMapping at h
  simp only at h
  split at h
  · cases h
  · rename_i hasserts
    omega

/-- `gemm_mapping` cuts the dimensions of every multiplication, whatever the sizes of the memories and
the number of cores are. -/
theorem gemmMapping_cut {config : SimulationConfig} {key : MappingKey}
    (hsquare : (config.tilerCore key.targetCore).dim = (config.tilerCore key.targetCore).width)
    (hdim : 0 < (config.tilerCore key.targetCore).dim) (hprecision : 0 < config.precision)
    (hN : 0 < key.N) (hC : 0 < key.C) (hM : 0 < key.M) :
    ∃ mapping, gemmMapping config key = some mapping ∧
      Cut (config.tilerCore key.targetCore).dim key.N key.C key.M mapping := by
  unfold gemmMapping
  simp only
  rw [if_neg (by simp [hsquare]; omega)]
  refine ⟨_, rfl, rfl, rfl, rfl, ?_, ?_, ?_⟩
  · exact cutInto_inner hdim hN _
  · exact cutInto_inner hdim hC _
  · exact cutInto_inner hdim hM _

end OnnxSim
