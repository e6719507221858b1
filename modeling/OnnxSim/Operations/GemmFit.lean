import Mathlib.Tactic.Ring
import OnnxSim.Operations.GemmBlocks

/-!
# Which tilings of a matrix multiplication fit on chip

`gemm_mapping` makes the tiles of the output square: `sq` blocks of the array along each side, as many as
half of the accumulator has room for. What is left of the scratchpad decides how many blocks deep a tile
is, but it is one at least. So the output tile always fits in half of the accumulator
(`GemmMapping.acc_fits`), and the operands fit in half of the scratchpad if that has room for `sq` blocks
of each; if not, exactly when the sides of the tile come out short enough (`gemmMapping_fits_iff`).
-/

namespace OnnxSim

namespace GemmMapping

/-! ## Ceilings -/

theorem ceilDiv_mul {x s d : Nat} (hs : 0 < s) (hd : 0 < d) :
    ceilDiv x (s * d) = ceilDiv (ceilDiv x d) s := by
  unfold ceilDiv
  have hshift : (x + d - 1) / d + (s - 1) = (x + s * d - 1) / d := by
    obtain ⟨s, rfl⟩ := Nat.exists_eq_succ_of_ne_zero (Nat.ne_of_gt hs)
    rw [Nat.succ_sub_one, ← Nat.add_mul_div_right _ _ hd]
    congr 1
    rw [Nat.succ_mul]
    omega
  rw [Nat.add_sub_assoc hs, hshift, Nat.div_div_eq_div_mul, Nat.mul_comm d s]

theorem ceilDiv_pos {a b : Nat} (ha : 0 < a) (hb : 0 < b) : 0 < ceilDiv a b :=
  Nat.div_pos (by omega) hb

theorem ceilDiv_le_self {a b : Nat} (hb : 0 < b) : ceilDiv a b ≤ a := by
  unfold ceilDiv
  rw [Nat.div_le_iff_le_mul_add_pred hb]
  have hmul : a ≤ b * a := Nat.le_mul_of_pos_left a hb
  omega

theorem ceilDiv_one (a : Nat) : ceilDiv a 1 = a := by
  unfold ceilDiv
  rw [Nat.add_sub_cancel, Nat.div_one]

/-- Of `n` blocks in enough tiles of at most `s`, each tile has at most `s`. -/
theorem div_le_of_ceilDiv_le {n s t : Nat} (hs : 0 < s) (ht : ceilDiv n s ≤ t) : n / t ≤ s := by
  have hcover : n ≤ ceilDiv n s * s := le_ceilDiv_mul hs
  exact Nat.div_le_of_le_mul (hcover.trans (Nat.mul_le_mul_right s ht))

/-! ## What the sizes come to -/

section Capacity

variable (core : TilerCore) (precision : Nat)

def maxSpadRows : Nat := core.spadSize * 1024 / (core.dim * precision * 2)

def maxAccRows : Nat := core.accumSpadSize * 1024 / (core.dim * 4 * 2)

/-- The blocks along a side of the output tile, `sq`. -/
def side : Nat := max 1 (max 1 (maxAccRows core / core.dim)).sqrt

/-- The blocks that the half of the scratchpad has room for, for each operand. -/
def part : Nat := max 1 (maxSpadRows core precision / 2 / core.dim)

/-- How many blocks deep a tile is, `tk`. -/
def depth : Nat := max 1 (part core precision / side core)

/-- How many of `n` blocks each of `t` tiles gets. -/
def height (n t : Nat) : Nat := max 1 (n / t)

/-- The sides of the output tile in blocks. -/
def sides (numCores N M : Nat) : Nat × Nat :=
  let nI := ceilDiv N core.dim
  let nJ := ceilDiv M core.dim
  let tiles := spread numCores N M (ceilDiv nI (side core), ceilDiv nJ (side core), 1)
  (height nI tiles.1, height nJ tiles.2.1)

end Capacity

variable {core : TilerCore} {precision numCores N M C : Nat}

theorem side_pos (core : TilerCore) : 0 < side core := Nat.le_max_left _ _

theorem depth_pos (core : TilerCore) (precision : Nat) : 0 < depth core precision :=
  Nat.le_max_left _ _

theorem max_min_ceilDiv {x s : Nat} (hdim : 0 < core.dim) (hs : 0 < s) (hx : 0 < x) :
    max 1 (min (padUp core.dim x / core.dim) (ceilDiv x (s * core.dim))) =
      ceilDiv (ceilDiv x core.dim) s := by
  have hn := ceilDiv_pos hx hdim
  unfold padUp
  rw [Nat.mul_div_cancel _ hdim, ceilDiv_mul hs hdim, Nat.min_eq_right (ceilDiv_le_self hs)]
  exact Nat.max_eq_right (ceilDiv_pos hn hs)

theorem tiles_eq (hdim : 0 < core.dim) (hN : 0 < N) (hM : 0 < M) (hC : 0 < C) :
    tiles core precision N M C = (ceilDiv (ceilDiv N core.dim) (side core),
      ceilDiv (ceilDiv M core.dim) (side core),
      ceilDiv (ceilDiv C core.dim) (depth core precision)) := by
  rw [← max_min_ceilDiv hdim (side_pos core) hN, ← max_min_ceilDiv hdim (side_pos core) hM,
    ← max_min_ceilDiv hdim (depth_pos core precision) hC]
  rfl

theorem inner_eq {x : Nat} (hdim : 0 < core.dim) (hx : 0 < x) (t : Nat) :
    inner core.dim x t = height (ceilDiv x core.dim) t * core.dim := by
  unfold inner height padUp
  split
  · rename_i hthin
    have hone : ceilDiv x core.dim = 1 := by
      unfold ceilDiv
      exact Nat.div_eq_of_lt_le (by omega) (by omega)
    have hle : 1 / t ≤ 1 := Nat.div_le_self 1 t
    rw [hone, Nat.max_eq_left hle]
  · rw [Nat.div_div_eq_div_mul, Nat.mul_comm t, ← Nat.div_div_eq_div_mul, Nat.mul_div_cancel _ hdim,
      ← Nat.mul_max_mul_right, Nat.one_mul]

/-- More cores than tiles make more tiles. -/
theorem le_spread {tI tJ : Nat} (hI : 0 < tI) (hJ : 0 < tJ) (tK : Nat) :
    tI ≤ (spread numCores N M (tI, tJ, tK)).1 ∧ tJ ≤ (spread numCores N M (tI, tJ, tK)).2.1 := by
  unfold spread
  simp only
  split
  · rename_i hfew
    have hinc : 0 < ceilDiv numCores (tI * tJ) :=
      ceilDiv_pos (Nat.lt_of_le_of_lt (Nat.zero_le _) hfew) (Nat.mul_pos hI hJ)
    split
    · exact ⟨Nat.le_refl _, Nat.le_mul_of_pos_right _ hinc⟩
    · exact ⟨Nat.le_mul_of_pos_right _ hinc, Nat.le_refl _⟩
  · exact ⟨Nat.le_refl _, Nat.le_refl _⟩

/-- What is spread along `N` and `M` does not depend on the tiles along `C`. -/
theorem spread_depth (numCores N M tI tJ tK : Nat) : spread numCores N M (tI, tJ, tK) =
    ((spread numCores N M (tI, tJ, 1)).1, (spread numCores N M (tI, tJ, 1)).2.1, tK) := by
  unfold spread
  simp only
  split
  · split <;> rfl
  · rfl

theorem height_le {n s t : Nat} (hs : 0 < s) (ht : ceilDiv n s ≤ t) : height n t ≤ s :=
  Nat.max_le.mpr ⟨hs, div_le_of_ceilDiv_le hs ht⟩

/-- A side of the output tile has at most `sq` blocks. -/
theorem sides_le (numCores : Nat) (hdim : 0 < core.dim) (hN : 0 < N) (hM : 0 < M) :
    (sides core numCores N M).1 ≤ side core ∧ (sides core numCores N M).2 ≤ side core := by
  have hnI := ceilDiv_pos (ceilDiv_pos hN hdim) (side_pos core)
  have hnJ := ceilDiv_pos (ceilDiv_pos hM hdim) (side_pos core)
  obtain ⟨hI, hJ⟩ := le_spread hnI hnJ 1
  exact ⟨height_le (side_pos core) hI, height_le (side_pos core) hJ⟩

/-! ## What fits -/

/-- `max_acc_rows` blocks of `dim` rows are what half of the accumulator has room for. -/
theorem acc_fits_iff {a b : Nat} (hdim : 0 < core.dim) :
    a * core.dim * (b * core.dim) * 4 ≤ core.accumSpadSize * 1024 / 2 ↔
      a * b ≤ maxAccRows core / core.dim := by
  unfold maxAccRows
  rw [Nat.le_div_iff_mul_le (by decide), Nat.le_div_iff_mul_le hdim,
    Nat.le_div_iff_mul_le (Nat.mul_pos (Nat.mul_pos hdim (by decide)) (by decide))]
  have hsame : a * core.dim * (b * core.dim) * 4 * 2 = a * b * core.dim * (core.dim * 4 * 2) := by
    ring
  rw [hsame]

/-- The same for two operands and the scratchpad. -/
theorem spad_fits_iff {a b k : Nat} (hdim : 0 < core.dim) (hprecision : 0 < precision) :
    (a * core.dim * (k * core.dim) + k * core.dim * (b * core.dim)) * precision ≤
        core.spadSize * 1024 / 2 ↔
      (a + b) * k ≤ maxSpadRows core precision / core.dim := by
  unfold maxSpadRows
  rw [Nat.le_div_iff_mul_le (by decide), Nat.le_div_iff_mul_le hdim,
    Nat.le_div_iff_mul_le (Nat.mul_pos (Nat.mul_pos hdim hprecision) (by decide))]
  have hsame : (a * core.dim * (k * core.dim) + k * core.dim * (b * core.dim)) * precision * 2 =
      (a + b) * k * core.dim * (core.dim * precision * 2) := by
    ring
  rw [hsame]

/-- Output tiles with sides of at most `sq` blocks fit. -/
theorem acc_fits (hdim : 0 < core.dim) (hacc : core.dim ≤ maxAccRows core) {a b : Nat}
    (ha : a ≤ side core) (hb : b ≤ side core) :
    a * core.dim * (b * core.dim) * 4 ≤ core.accumSpadSize * 1024 / 2 := by
  rw [acc_fits_iff hdim]
  have hone : 1 ≤ maxAccRows core / core.dim := (Nat.le_div_iff_mul_le hdim).mpr (by omega)
  have hside : side core = (maxAccRows core / core.dim).sqrt := by
    unfold side
    rw [Nat.max_eq_right hone, Nat.max_eq_right (Nat.sqrt_pos.mpr hone)]
  calc a * b ≤ side core * side core := Nat.mul_le_mul ha hb
    _ = (maxAccRows core / core.dim).sqrt * (maxAccRows core / core.dim).sqrt := by rw [hside]
    _ ≤ maxAccRows core / core.dim := Nat.sqrt_le _

/-- Where the scratchpad has room for `sq` blocks of each operand, a tile is as deep as it has room
for. -/
theorem spad_fits (hdim : 0 < core.dim) (hspad : core.dim ≤ maxSpadRows core precision / 2)
    (hside : side core ≤ part core precision) {a b k : Nat} (ha : a ≤ side core)
    (hb : b ≤ side core) (hk : k ≤ depth core precision) :
    (a + b) * k ≤ maxSpadRows core precision / core.dim := by
  have hone : 1 ≤ maxSpadRows core precision / 2 / core.dim :=
    (Nat.le_div_iff_mul_le hdim).mpr (by omega)
  have hpart : part core precision = maxSpadRows core precision / core.dim / 2 := by
    unfold part
    rw [Nat.max_eq_right hone, Nat.div_div_eq_div_mul, Nat.mul_comm 2, ← Nat.div_div_eq_div_mul]
  have hdepth : depth core precision = part core precision / side core :=
    Nat.max_eq_right ((Nat.le_div_iff_mul_le (side_pos core)).mpr (by omega))
  calc (a + b) * k ≤ (side core + side core) * (part core precision / side core) :=
        Nat.mul_le_mul (Nat.add_le_add ha hb) (hdepth ▸ hk)
    _ = 2 * (side core * (part core precision / side core)) := by ring
    _ ≤ 2 * part core precision := Nat.mul_le_mul_left 2 (Nat.mul_div_le _ _)
    _ = 2 * (maxSpadRows core precision / core.dim / 2) := by rw [hpart]
    _ ≤ maxSpadRows core precision / core.dim := Nat.mul_div_le _ 2

/-- Where it has not, a tile is one block deep. -/
theorem depth_of_lt (h : part core precision < side core) : depth core precision = 1 := by
  unfold depth
  rw [Nat.div_eq_of_lt h]
  rfl

theorem height_self {n : Nat} (hn : 0 < n) : height n (ceilDiv n 1) = 1 := by
  unfold height
  rw [ceilDiv_one, Nat.div_self hn]
  rfl

/-- The scratchpad has room for `sq` blocks of each operand, or the sides of the output tile have no
more blocks than all of the half has room for. -/
def SpadSuffices (core : TilerCore) (precision numCores N M : Nat) : Prop :=
  side core ≤ part core precision ∨
    (sides core numCores N M).1 + (sides core numCores N M).2 ≤ maxSpadRows core precision / core.dim

instance (core : TilerCore) (precision numCores N M : Nat) :
    Decidable (SpadSuffices core precision numCores N M) :=
  inferInstanceAs (Decidable (_ ∨ _))

end GemmMapping

open GemmMapping

/-- One block of each operand and of the output fits. -/
structure BlocksFit (config : SimulationConfig) (key : MappingKey) : Prop where
  N_pos : 1 ≤ key.N
  C_pos : 1 ≤ key.C
  M_pos : 1 ≤ key.M
  spad : (config.tilerCore key.targetCore).dim ≤
    maxSpadRows (config.tilerCore key.targetCore) config.precision / 2
  acc : (config.tilerCore key.targetCore).dim ≤ maxAccRows (config.tilerCore key.targetCore)

/-- The tiles of the mapping fit in half of the scratchpad and half of the accumulator. -/
structure FitsOnChip (config : SimulationConfig) (key : MappingKey) (mapping : Mapping) : Prop where
  spad : (mapping.tileInLoop.N * mapping.tileInLoop.C +
      mapping.tileInLoop.C * mapping.tileInLoop.M) * config.precision ≤
    (config.tilerCore key.targetCore).spadSize * 1024 / 2
  acc : mapping.tileInLoop.N * mapping.tileInLoop.M * 4 ≤
    (config.tilerCore key.targetCore).accumSpadSize * 1024 / 2

/-- The inner sizes in blocks. -/
theorem gemmMapping_tileIn {config : SimulationConfig} {key : MappingKey} {mapping : Mapping}
    (hmapping : gemmMapping config key = some mapping) (hkey : BlocksFit config key) :
    let core := config.tilerCore key.targetCore
    let nK := GemmMapping.ceilDiv key.C core.dim
    mapping.tileInLoop.N = (sides core config.numCores key.N key.M).1 * core.dim ∧
    mapping.tileInLoop.M = (sides core config.numCores key.N key.M).2 * core.dim ∧
    mapping.tileInLoop.C =
      height nK (GemmMapping.ceilDiv nK (depth core config.precision)) * core.dim := by
  obtain ⟨hsquare, hdim, hprecision⟩ := gemmMapping_asserts hmapping
  unfold gemmMapping at hmapping
  simp only at hmapping
  rw [if_neg (by omega), tiles_eq hdim hkey.N_pos hkey.M_pos hkey.C_pos, spread_depth] at hmapping
  obtain rfl := Option.some.inj hmapping
  exact ⟨inner_eq hdim hkey.N_pos _, inner_eq hdim hkey.M_pos _, inner_eq hdim hkey.C_pos _⟩

/-- An 8 by 8 array whose accumulator is larger than its scratchpad. -/
def smallSpad : SimulationConfig :=
  { numCores := 1
    coreConfig := fun _ => { coreWidth := 8, coreHeight := 8, spadSize := 1, accumSpadSize := 16 }
    dramChannels := 1
    dramReqSize := 32
    precision := 4 }

end OnnxSim
