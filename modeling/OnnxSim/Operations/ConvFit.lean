import Mathlib.Tactic.GCongr
import Mathlib.Tactic.Positivity
import Mathlib.Tactic.Ring
import OnnxSim.Operations.ConvMapping

/-!
# The search for the tiling of a convolution ends and finds one that fits

The first loop of `calc_conv_mapping` reduces a loop count that is at least two as long as the tile does
not fit, because a tile of ones fits; so no count reaches zero, and their sum falls. The other two loops
take candidates that fit only, and each turn of them but the last adds to the sum, which the layer bounds.
So all three end, after no more turns than the loop counts of the layer add up to, and the tile fits
(`calcConvMapping_fits`).
-/

namespace OnnxSim

/-! ## Rounded division -/

/-- `x / dim + (x % dim != 0)`. -/
def banks (x dim : Int) : Int := x.tdiv dim + if x.tmod dim ≠ 0 then 1 else 0

theorem banks_eq {x dim : Int} (hx : 0 ≤ x) (hdim : 0 < dim) : banks x dim = (x + (dim - 1)) / dim := by
  unfold banks
  rw [Int.tdiv_eq_ediv_of_nonneg hx, Int.tmod_eq_emod_of_nonneg hx]
  have hsplit := Int.emod_add_mul_ediv x dim
  have hlt := Int.emod_lt_of_pos x hdim
  have hpos := Int.emod_nonneg x (Int.ne_of_gt hdim)
  have hne := Int.ne_of_gt hdim
  split
  · have hsum : x + (dim - 1) = x % dim - 1 + dim * (x / dim + 1) := by
      rw [Int.mul_add, Int.mul_one]
      omega
    have hzero : (x % dim - 1) / dim = 0 := Int.ediv_eq_zero_of_lt (by omega) (by omega)
    rw [hsum, Int.add_mul_ediv_left _ _ hne, hzero, Int.zero_add]
  · have hsum : x + (dim - 1) = dim - 1 + dim * (x / dim) := by omega
    have hzero : (dim - 1) / dim = 0 := Int.ediv_eq_zero_of_lt (by omega) (by omega)
    rw [hsum, Int.add_mul_ediv_left _ _ hne, hzero, Int.zero_add, Int.add_zero]

theorem banks_mono {x y dim : Int} (hx : 0 ≤ x) (hxy : x ≤ y) (hdim : 0 < dim) :
    banks x dim ≤ banks y dim := by
  rw [banks_eq hx hdim, banks_eq (by omega) hdim]
  exact Int.ediv_le_ediv hdim (by omega)

theorem banks_nonneg {x dim : Int} (hx : 0 ≤ x) (hdim : 0 < dim) : 0 ≤ banks x dim := by
  rw [banks_eq hx hdim]
  exact Int.ediv_nonneg (by omega) (by omega)

theorem banks_one {dim : Int} (hdim : 0 < dim) : banks 1 dim = 1 := by
  rw [banks_eq (by decide) hdim, show 1 + (dim - 1) = dim by omega]
  exact Int.ediv_self (Int.ne_of_gt hdim)

theorem shiftRight_mono {x y : Int} (h : x ≤ y) (n : Nat) : x >>> n ≤ y >>> n := by
  rw [Int.shiftRight_eq_div_pow, Int.shiftRight_eq_div_pow]
  exact Int.ediv_le_ediv (by positivity) h

theorem shiftRight_nonneg {x : Int} (h : 0 ≤ x) (n : Nat) : 0 ≤ x >>> n := by
  rw [Int.shiftRight_eq_div_pow]
  exact Int.ediv_nonneg h (by positivity)

theorem mul_between {a a' b b' : Int} (ha : 0 ≤ a ∧ a ≤ a') (hb : 0 ≤ b ∧ b ≤ b') :
    0 ≤ a * b ∧ a * b ≤ a' * b' :=
  ⟨Int.mul_nonneg ha.1 hb.1, Int.mul_le_mul ha.2 hb.2 hb.1 (Int.le_trans ha.1 ha.2)⟩

theorem asUnsigned_le {x : Int} (h : 0 ≤ x) : (asUnsigned x : Int) ≤ x := by
  unfold asUnsigned
  omega

namespace ConvSearch

variable {c : ConvSearch} {args args' : List Int}

/-! ## The rows of a tile -/

/-- The `downsample` shift. -/
def shift (c : ConvSearch) : Nat :=
  if decide (c.stride = 2) && decide (c.kernelDim = 1) && decide (c.padding = 0) then 1 else 0

theorem rows_spad (c : ConvSearch) (args : List Int) : c.rows false args =
    banks (args.getD 6 0) c.core.dim * args.getD 0 0 *
        ((args.getD 1 0 * c.stride + args.getD 4 0 - 1) >>> c.shift) *
        ((args.getD 2 0 * c.stride + args.getD 5 0 - 1) >>> c.shift) +
      banks (args.getD 3 0) c.core.dim * args.getD 5 0 * args.getD 4 0 * args.getD 6 0 := by
  unfold rows calcConvRows banks shift
  simp

theorem rows_acc (c : ConvSearch) (args : List Int) : c.rows true args =
    banks (args.getD 3 0) c.core.dim * args.getD 0 0 * args.getD 1 0 * args.getD 2 0 := by
  unfold rows calcConvRows banks
  simp

/-- The loop counts of a tile: each is at least one and at most that of the layer. -/
structure Sized (c : ConvSearch) (args : List Int) : Prop extends c.Bounded args where
  pos : ∀ i < 7, 1 ≤ args.getD i 0

/-- A tile takes no more rows than the layer. -/
theorem Sized.rows_le (h : c.Sized args) (hdim : 0 < c.core.dim) (hstride : 1 ≤ c.stride)
    (acc : Bool) : 0 ≤ c.rows acc args ∧ c.rows acc args ≤ c.rows acc c.maxArgs := by
  have hdim' : (0 : Int) < c.core.dim := by exact_mod_cast hdim
  have harg : ∀ i, 0 ≤ args.getD i 0 ∧ args.getD i 0 ≤ c.maxArgs.getD i 0 :=
    fun i => ⟨h.nonneg i, h.le i⟩
  have hbanks : ∀ i, 0 ≤ banks (args.getD i 0) c.core.dim ∧
      banks (args.getD i 0) c.core.dim ≤ banks (c.maxArgs.getD i 0) c.core.dim :=
    fun i => ⟨banks_nonneg (h.nonneg i) hdim', banks_mono (h.nonneg i) (h.le i) hdim'⟩
  -- the rows or columns of the input
  have hinput : ∀ i < 7, ∀ k < 7,
      0 ≤ (args.getD i 0 * c.stride + args.getD k 0 - 1) >>> c.shift ∧
      (args.getD i 0 * c.stride + args.getD k 0 - 1) >>> c.shift ≤
        (c.maxArgs.getD i 0 * c.stride + c.maxArgs.getD k 0 - 1) >>> c.shift := by
    intro i hi k hk
    obtain ⟨hnonneg, hle⟩ := mul_between (harg i) ⟨Int.le_trans (by decide) hstride, Int.le_refl c.stride⟩
    have hpos := h.pos k hk
    have hk' := h.le k
    exact ⟨shiftRight_nonneg (by omega) _, shiftRight_mono (by omega) _⟩
  cases acc with
  | true =>
    rw [rows_acc, rows_acc]
    exact mul_between (mul_between (mul_between (hbanks 3) (harg 0)) (harg 1)) (harg 2)
  | false =>
    have hA := mul_between (mul_between (mul_between (hbanks 6) (harg 0))
      (hinput 1 (by decide) 4 (by decide))) (hinput 2 (by decide) 5 (by decide))
    have hB := mul_between (mul_between (mul_between (hbanks 3) (harg 5)) (harg 4)) (harg 6)
    rw [rows_spad, rows_spad]
    exact ⟨Int.add_nonneg hA.1 hB.1, Int.add_le_add hA.2 hB.2⟩

/-- A tile of ones fits. -/
structure OnesFit (c : ConvSearch) : Prop where
  stride_pos : 1 ≤ c.stride
  spad : (if c.stride = 2 ∧ c.kernelDim = 1 ∧ c.padding = 0 then 2 else c.stride * c.stride + 1) ≤
    c.maxSpadRows
  acc : 1 ≤ c.maxAccRows

theorem OnesFit.dim_pos (h : c.OnesFit) : 0 < c.core.dim := by
  refine Nat.pos_of_ne_zero fun hzero => ?_
  have hacc := h.acc
  unfold maxAccRows at hacc
  rw [hzero] at hacc
  simp at hacc

theorem OnesFit.fits (h : c.OnesFit) (hones : ∀ i < 7, args.getD i 0 = 1) : c.fits args = true := by
  have hdim : (0 : Int) < c.core.dim := by exact_mod_cast h.dim_pos
  have hacc : c.rows true args = 1 := by
    rw [rows_acc, hones 3 (by decide), hones 0 (by decide), hones 1 (by decide), hones 2 (by decide),
      banks_one hdim]
    rfl
  have hspad : c.rows false args = (c.stride >>> c.shift) * (c.stride >>> c.shift) + 1 := by
    rw [rows_spad, hones 6 (by decide), hones 0 (by decide), hones 1 (by decide),
      hones 4 (by decide), hones 2 (by decide), hones 5 (by decide), hones 3 (by decide),
      banks_one hdim]
    simp
  have hspadle : c.rows false args ≤ c.maxSpadRows := by
    refine Int.le_trans (Int.le_of_eq ?_) h.spad
    rw [hspad]
    unfold shift
    simp only [Bool.and_eq_true, decide_eq_true_eq, and_assoc]
    split
    · rename_i hdown
      rw [hdown.1]
      rfl
    · simp
  have hnonneg : 0 ≤ c.rows false args := by
    rw [hspad]
    have hsquare := Int.mul_nonneg (shiftRight_nonneg (Int.le_trans (by decide) h.stride_pos) c.shift)
      (shiftRight_nonneg (Int.le_trans (by decide) h.stride_pos) c.shift)
    omega
  have haccle := h.acc
  have hspadle' := asUnsigned_le hnonneg
  have hacc' : asUnsigned (c.rows true args) = 1 := by
    rw [hacc]
    rfl
  unfold ConvSearch.fits
  exact decide_eq_true ⟨by omega, by omega⟩

/-! ## The first loop -/

/-- The sum of the loop counts. -/
def sum (args : List Int) : Int :=
  args.getD 0 0 + args.getD 1 0 + args.getD 2 0 + args.getD 3 0 + args.getD 4 0 + args.getD 5 0 +
    args.getD 6 0

theorem Bounded.sum_set (h : c.Bounded args) {i : Nat} (hi : i < 7) (x : Int) :
    sum (args.set i x) = sum args + (x - args.getD i 0) := by
  unfold sum
  simp only [h.getD_set hi]
  obtain rfl | rfl | rfl | rfl | rfl | rfl | rfl : i = 0 ∨ i = 1 ∨ i = 2 ∨ i = 3 ∨ i = 4 ∨ i = 5 ∨
    i = 6 := by omega
  all_goals simp <;> omega

theorem Sized.sum_pos (h : c.Sized args) : 7 ≤ sum args := by
  have h0 := h.pos 0 (by decide)
  have h1 := h.pos 1 (by decide)
  have h2 := h.pos 2 (by decide)
  have h3 := h.pos 3 (by decide)
  have h4 := h.pos 4 (by decide)
  have h5 := h.pos 5 (by decide)
  have h6 := h.pos 6 (by decide)
  unfold sum
  omega

theorem Bounded.sum_le (h : c.Bounded args) : sum args ≤ sum c.maxArgs := by
  have h0 := h.le 0
  have h1 := h.le 1
  have h2 := h.le 2
  have h3 := h.le 3
  have h4 := h.le 4
  have h5 := h.le 5
  have h6 := h.le 6
  unfold sum
  omega

theorem Sized.set (h : c.Sized args) {i : Nat} {x : Int} (hi : i < 7) (hpos : 1 ≤ x)
    (hle : x ≤ c.maxArgs.getD i 0) : c.Sized (args.set i x) := by
  refine ⟨h.toBounded.set hi (by omega) hle, fun j hj => ?_⟩
  rw [h.getD_set hi]
  split
  · exact hpos
  · exact h.pos j hj

/-- What the first loop reduces is at least two. -/
theorem OnesFit.largest_two (hones : c.OnesFit) (h : c.Sized args) (hfits : c.fits args ≠ true) :
    ∃ i : Nat, i < 7 ∧ (c.largest args).2 = i ∧ 2 ≤ args.getD i 0 := by
  obtain ⟨hplace, hmax⟩ := c.largest_spec args
  have htwo : 2 ≤ (c.largest args).1 := by
    by_contra hle
    have hrows := hmax 1 (by decide) fun hskip => absurd hskip.1 (by decide)
    refine hfits (hones.fits fun i hi => ?_)
    have hcount := hmax i hi fun hskip => by
      have := hskip.2.2
      omega
    have := h.pos i hi
    omega
  obtain hnone | ⟨i, hi⟩ := hplace
  · rw [hnone] at htwo
    exact absurd htwo (by decide)
  · rw [hi] at htwo ⊢
    refine ⟨i, ?_, rfl, htwo⟩
    by_contra hge
    have hzero : args.getD i 0 = 0 := by
      rw [List.getD_eq_getElem?_getD, List.getElem?_eq_none (by rw [h.length]; omega)]
      rfl
    rw [hzero] at htwo
    have hfalse : (2 : Int) ≤ 0 := htwo
    omega

/-- A turn of the first loop takes something from one loop count, and not all of it. -/
theorem OnesFit.shrink (hones : c.OnesFit) (hmax : ∀ i, c.maxArgs.getD i 0 < 2 ^ 32)
    (h : c.Sized args) (hfits : c.fits args ≠ true) :
    ∃ args', c.shrink args = some args' ∧ c.Sized args' ∧ sum args' < sum args := by
  obtain ⟨i, hi, hplace, htwo⟩ := hones.largest_two h hfits
  have hle := h.le i
  have hword := asUnsigned_of_lt (h.nonneg i) (Int.lt_of_le_of_lt hle (hmax i))
  have hless : ∀ y : Int, 1 ≤ y → y < args.getD i 0 →
      c.Sized (args.set i y) ∧ sum (args.set i y) < sum args := by
    intro y hy hlt
    rw [h.sum_set hi]
    exact ⟨h.set hi hy (by omega), by omega⟩
  unfold ConvSearch.shrink
  rw [hplace, if_neg (by omega)]
  simp only [Int.toNat_natCast]
  generalize args.getD i 0 = x at htwo hle hword hless
  generalize asUnsigned x = n at hword
  split
  · refine ⟨_, rfl, ?_⟩
    have hdim := hones.dim_pos
    -- channels are reduced to the multiple of `dim` below
    have hnext : ∀ y : Int, 0 ≤ y → y < x →
        c.Sized (args.set i (if y = 0 then 1 else y)) ∧
          sum (args.set i (if y = 0 then 1 else y)) < sum args := by
      intro y hy hyx
      refine hless _ ?_ ?_ <;> split <;> omega
    split
    · rename_i hmod
      have hsplit := Nat.div_add_mod n c.core.dim
      have hfloor : n / c.core.dim * c.core.dim < n := by
        rw [Nat.mul_comm]
        omega
      refine hnext _ (Int.mul_nonneg (Int.ediv_nonneg (Int.natCast_nonneg _) (Int.natCast_nonneg _))
        (Int.natCast_nonneg _)) ?_
      rw [← hword]
      exact_mod_cast hfloor
    · rename_i hdvd
      have hle' : c.core.dim ≤ n :=
        Nat.le_of_dvd (by omega) (Nat.dvd_of_mod_eq_zero (Decidable.not_not.mp hdvd))
      exact hnext _ (by omega) (by omega)
  · exact ⟨_, rfl, hless _ (by omega) (by omega)⟩

/-- The first loop ends with a tile that fits, after no more turns than the loop counts add up to. -/
theorem OnesFit.shrinkLoop (hones : c.OnesFit) (hmax : ∀ i, c.maxArgs.getD i 0 < 2 ^ 32) (n : Nat)
    (h : c.Sized args) (hn : sum args ≤ n) :
    ∃ args', (∀ fuel, n < fuel → c.shrinkLoop fuel args = some args') ∧ c.Sized args' ∧
      c.fits args' = true := by
  induction n generalizing args with
  | zero =>
    have hpos := h.sum_pos
    exact absurd (Int.le_trans hpos hn) (by decide)
  | succ n ih =>
    by_cases hfits : c.fits args = true
    · refine ⟨args, fun fuel hfuel => ?_, h, hfits⟩
      obtain ⟨fuel, rfl⟩ := Nat.exists_eq_succ_of_ne_zero (Nat.ne_of_gt (Nat.zero_lt_of_lt hfuel))
      unfold ConvSearch.shrinkLoop
      rw [if_pos hfits]
    · obtain ⟨args₁, hshrink, h₁, hless⟩ := hones.shrink hmax h hfits
      obtain ⟨args', hloop, h'⟩ := ih h₁ (by omega)
      refine ⟨args', fun fuel hfuel => ?_, h'⟩
      obtain ⟨fuel, rfl⟩ := Nat.exists_eq_succ_of_ne_zero (Nat.ne_of_gt (Nat.zero_lt_of_lt hfuel))
      unfold ConvSearch.shrinkLoop
      rw [if_neg hfits, hshrink]
      exact hloop fuel (by omega)

/-! ## The other loops -/

/-- A loop count grows where the layer allows it. -/
theorem Sized.grown (h : c.Sized args) {i : Nat} (hi : i < 7)
    (hle : (grown args i).getD i 0 ≤ c.maxArgs.getD i 0) :
    c.Sized (grown args i) ∧ sum (ConvSearch.grown args i) = sum args + 1 := by
  unfold ConvSearch.grown at hle ⊢
  have hpos := h.pos i hi
  rw [h.getD_set hi, if_pos rfl] at hle
  rw [h.sum_set hi]
  exact ⟨h.set hi (by omega) hle, by omega⟩

/-- The second loop ends with a tile that fits. -/
theorem Sized.growColumns (n : Nat) (h : c.Sized args) (hfits : c.fits args = true)
    (hn : sum c.maxArgs - sum args ≤ n) :
    ∃ args', (∀ fuel, n < fuel → c.growColumns fuel args = some args') ∧ c.Sized args' ∧
      c.fits args' = true := by
  induction n generalizing args with
  | zero =>
    refine ⟨args, fun fuel hfuel => ?_, h, hfits⟩
    obtain ⟨fuel, rfl⟩ := Nat.exists_eq_succ_of_ne_zero (Nat.ne_of_gt hfuel)
    unfold ConvSearch.growColumns
    refine if_neg fun hroom => ?_
    obtain ⟨hsized, hsum⟩ := h.grown (by decide) hroom.1
    have hle := hsized.sum_le
    omega
  | succ n ih =>
    by_cases hroom : (ConvSearch.grown args 2).getD 2 0 ≤ c.maxArgs.getD 2 0 ∧
        c.fits (ConvSearch.grown args 2) = true
    · obtain ⟨hsized, hsum⟩ := h.grown (by decide) hroom.1
      obtain ⟨args', hloop, h'⟩ := ih hsized hroom.2 (by omega)
      refine ⟨args', fun fuel hfuel => ?_, h'⟩
      obtain ⟨fuel, rfl⟩ := Nat.exists_eq_succ_of_ne_zero (Nat.ne_of_gt (Nat.zero_lt_of_lt hfuel))
      unfold ConvSearch.growColumns
      simp only
      rw [if_pos hroom]
      exact hloop fuel (by omega)
    · refine ⟨args, fun fuel hfuel => ?_, h, hfits⟩
      obtain ⟨fuel, rfl⟩ := Nat.exists_eq_succ_of_ne_zero (Nat.ne_of_gt (Nat.zero_lt_of_lt hfuel))
      unfold ConvSearch.growColumns
      exact if_neg hroom

/-- A turn of the third loop changes nothing, or adds to the sum. -/
theorem Sized.growEach (h : c.Sized args) (hfits : c.fits args = true) :
    (c.growEach args = (args, false) ∨
      (c.growEach args).2 = true ∧ sum args < sum (c.growEach args).1) ∧
    c.Sized (c.growEach args).1 ∧ c.fits (c.growEach args).1 = true := by
  have hloop : ∀ n ≤ 7, ∀ st, (List.range n).foldl (fun st i =>
      let candidate := ConvSearch.grown st.1 i
      if candidate.getD i 0 ≤ c.maxArgs.getD i 0 ∧ c.fits candidate ∧ c.leavesRoom st.1 then
        (candidate, true)
      else st) (args, false) = st →
      (st = (args, false) ∨ st.2 = true ∧ sum args < sum st.1) ∧ c.Sized st.1 ∧
        c.fits st.1 = true := by
    intro n hn
    induction n with
    | zero =>
      rintro st rfl
      exact ⟨.inl rfl, h, hfits⟩
    | succ n ih =>
      intro st hst
      rw [List.range_succ, List.foldl_append, List.foldl_cons, List.foldl_nil] at hst
      generalize hbefore : (List.range n).foldl _ (args, false) = before at hst
      obtain ⟨hgrew, hsized, hfits'⟩ := ih (by omega) before hbefore
      simp only at hst
      split at hst
      · rename_i hroom
        obtain ⟨hsized', hsum⟩ := hsized.grown (by omega) hroom.1
        obtain rfl := hst
        refine ⟨.inr ⟨rfl, ?_⟩, hsized', hroom.2.1⟩
        rcases hgrew with rfl | ⟨-, hlt⟩
        · exact hsum ▸ Int.lt_add_one_of_le (Int.le_refl _)
        · exact Int.lt_trans hlt (hsum ▸ Int.lt_add_one_of_le (Int.le_refl _))
      · obtain rfl := hst
        exact ⟨hgrew, hsized, hfits'⟩
  exact hloop 7 (Nat.le_refl 7) _ rfl

/-- The third loop ends with a tile that fits. -/
theorem Sized.growLoop (n : Nat) (h : c.Sized args) (hfits : c.fits args = true)
    (hn : sum c.maxArgs - sum args ≤ n) :
    ∃ args', (∀ fuel, n < fuel → c.growLoop fuel args = some args') ∧ c.Sized args' ∧
      c.fits args' = true := by
  induction n generalizing args with
  | zero =>
    obtain ⟨hgrew, hsized, -⟩ := h.growEach hfits
    have hle := hsized.sum_le
    have hsame : c.growEach args = (args, false) := by
      rcases hgrew with heq | ⟨-, hlt⟩
      · exact heq
      · omega
    refine ⟨args, fun fuel hfuel => ?_, h, hfits⟩
    obtain ⟨fuel, rfl⟩ := Nat.exists_eq_succ_of_ne_zero (Nat.ne_of_gt hfuel)
    unfold ConvSearch.growLoop
    rw [hsame]
  | succ n ih =>
    obtain ⟨hgrew, hsized, hfits'⟩ := h.growEach hfits
    rcases hgrew with heq | ⟨htrue, hlt⟩
    · refine ⟨args, fun fuel hfuel => ?_, h, hfits⟩
      obtain ⟨fuel, rfl⟩ := Nat.exists_eq_succ_of_ne_zero (Nat.ne_of_gt (Nat.zero_lt_of_lt hfuel))
      unfold ConvSearch.growLoop
      rw [heq]
    · obtain ⟨args', hloop, h'⟩ := ih hsized hfits' (by omega)
      refine ⟨args', fun fuel hfuel => ?_, h'⟩
      obtain ⟨fuel, rfl⟩ := Nat.exists_eq_succ_of_ne_zero (Nat.ne_of_gt (Nat.zero_lt_of_lt hfuel))
      have hpair : c.growEach args = ((c.growEach args).1, true) := Prod.ext rfl htrue
      unfold ConvSearch.growLoop
      rw [hpair]
      exact hloop fuel (by omega)

end ConvSearch

/-! ## The mapping -/

/-- The search that `calc_conv_mapping` makes for a key. -/
def convSearch (config : SimulationConfig) (key : MappingKey) : ConvSearch where
  core := config.tilerCore key.targetCore
  precision := config.precision
  stride := key.stride
  padding := key.padding
  kernelDim := key.S
  maxArgs := [1, key.P, key.P, key.M, key.S, key.S, key.C]

/-- A convolution in which a tile of ones fits, and whose sizes and rows are `int`s. -/
structure ConvFits (config : SimulationConfig) (key : MappingKey) : Prop where
  conv : key.IsConv
  pos : ∀ d ∈ [key.N, key.C, key.M, key.S, key.P], 1 ≤ d
  ones : (convSearch config key).OnesFit
  words : ∀ d ∈ [key.N, key.C, key.M, key.S, key.P], d < 2 ^ 31
  rows : ∀ acc, (convSearch config key).rows acc (convSearch config key).maxArgs < 2 ^ 31

/-- `outer` tiles of `inner` numbers are what it takes for `total`. -/
structure CutWell (total outer inner : Nat) : Prop where
  inner_pos : 1 ≤ inner
  inner_le : inner ≤ total
  needed : (outer - 1) * inner < total
  enough : total ≤ outer * inner

/-- The tiles of the mapping cut the seven dimensions well and fit on chip. -/
structure TilesFit (config : SimulationConfig) (key : MappingKey) (mapping : Mapping) : Prop where
  total : mapping.totalLoop = key.toLoopCounts
  N : CutWell key.N mapping.tileOutLoop.N mapping.tileInLoop.N
  C : CutWell key.C mapping.tileOutLoop.C mapping.tileInLoop.C
  M : CutWell key.M mapping.tileOutLoop.M mapping.tileInLoop.M
  S : CutWell key.S mapping.tileOutLoop.S mapping.tileInLoop.S
  R : CutWell key.R mapping.tileOutLoop.R mapping.tileInLoop.R
  Q : CutWell key.Q mapping.tileOutLoop.Q mapping.tileInLoop.Q
  P : CutWell key.P mapping.tileOutLoop.P mapping.tileInLoop.P
  spad : (convSearch config key).rows false [(mapping.tileInLoop.N : Int), mapping.tileInLoop.P,
    mapping.tileInLoop.Q, mapping.tileInLoop.M, mapping.tileInLoop.S, mapping.tileInLoop.R,
    mapping.tileInLoop.C] ≤ (convSearch config key).maxSpadRows
  acc : (convSearch config key).rows true [(mapping.tileInLoop.N : Int), mapping.tileInLoop.P,
    mapping.tileInLoop.Q, mapping.tileInLoop.M, mapping.tileInLoop.S, mapping.tileInLoop.R,
    mapping.tileInLoop.C] ≤ (convSearch config key).maxAccRows

theorem cutWell_ceilDiv {total inner : Nat} (htotal : total < 2 ^ 31) (hpos : 1 ≤ inner)
    (hle : inner ≤ total) : CutWell total (ceilDiv total inner) inner := by
  have hceil : 0 < ceilDiv total inner := by
    refine Nat.pos_of_ne_zero fun hzero => ?_
    rcases (ceilDiv_eq_zero_iff (by omega)).mp hzero with h0 | h0 <;> omega
  have hcut := ceilDiv_cut (by omega) (by omega) hceil
  exact ⟨hpos, hle, hcut.start_lt _ (by omega), hcut.end_le⟩

theorem list_seven : ∀ {l : List Int}, l.length = 7 → l =
    [l.getD 0 0, l.getD 1 0, l.getD 2 0, l.getD 3 0, l.getD 4 0, l.getD 5 0, l.getD 6 0]
  | [_, _, _, _, _, _, _], _ => rfl

/-- The turns that are enough for the loops of `calc_conv_mapping`. -/
def loopTurns (key : MappingKey) : Nat := 1 + 2 * key.P + key.M + 2 * key.S + key.C

namespace ConvFits

variable {config : SimulationConfig} {key : MappingKey}

theorem word (h : ConvFits config key) : 1 ≤ key.N ∧ 1 ≤ key.C ∧ 1 ≤ key.M ∧ 1 ≤ key.S ∧
    1 ≤ key.P ∧ key.N < 2 ^ 31 ∧ key.C < 2 ^ 31 ∧ key.M < 2 ^ 31 ∧ key.S < 2 ^ 31 ∧
      key.P < 2 ^ 31 := by
  have hpos := h.pos
  have hwords := h.words
  simp only [List.forall_mem_cons, List.not_mem_nil, false_implies, implies_true, and_true]
    at hpos hwords
  tauto

/-- The loop counts of the layer. -/
theorem sized (h : ConvFits config key) :
    (convSearch config key).Sized (convSearch config key).maxArgs := by
  obtain ⟨-, hC, hM, hS, hP, -⟩ := h.word
  have hpos : ∀ i < 7, 1 ≤ (convSearch config key).maxArgs.getD i 0 := by
    intro i hi
    unfold convSearch
    obtain rfl | rfl | rfl | rfl | rfl | rfl | rfl : i = 0 ∨ i = 1 ∨ i = 2 ∨ i = 3 ∨ i = 4 ∨
      i = 5 ∨ i = 6 := by omega
    all_goals simp <;> omega
  refine ⟨⟨rfl, fun i => ?_, fun i => Int.le_refl _⟩, hpos⟩
  rcases Nat.lt_or_ge i 7 with hi | hi
  · exact Int.le_trans (by decide) (hpos i hi)
  · rw [List.getD_eq_getElem?_getD, List.getElem?_eq_none hi]
    rfl

theorem maxArgs_lt (h : ConvFits config key) (i : Nat) :
    (convSearch config key).maxArgs.getD i 0 < 2 ^ 31 := by
  obtain ⟨-, -, -, -, -, -, hC, hM, hS, hP⟩ := h.word
  rcases Nat.lt_or_ge i 7 with hi | hi
  · unfold convSearch
    obtain rfl | rfl | rfl | rfl | rfl | rfl | rfl : i = 0 ∨ i = 1 ∨ i = 2 ∨ i = 3 ∨ i = 4 ∨
      i = 5 ∨ i = 6 := by omega
    all_goals simp <;> omega
  · rw [List.getD_eq_getElem?_getD, List.getElem?_eq_none hi]
    decide

theorem precision_pos (h : ConvFits config key) : config.precision ≠ 0 := by
  intro hzero
  have hspad := h.ones.spad
  unfold ConvSearch.maxSpadRows convSearch at hspad
  rw [hzero] at hspad
  have hsquare := Int.mul_nonneg (Int.natCast_nonneg key.stride) (Int.natCast_nonneg key.stride)
  simp only [Nat.mul_zero, Nat.zero_mul, Nat.div_zero] at hspad
  split at hspad <;> omega

/-- The search ends with loop counts that fit. -/
theorem search (h : ConvFits config key) : ∃ args,
    (∀ fuel, loopTurns key < fuel →
      ((convSearch config key).shrinkLoop fuel (convSearch config key).maxArgs).bind (fun args =>
        ((convSearch config key).growColumns fuel args).bind
          ((convSearch config key).growLoop fuel)) = some args) ∧
    (convSearch config key).Sized args ∧ (convSearch config key).fits args = true := by
  have hturns : ConvSearch.sum (convSearch config key).maxArgs ≤ loopTurns key := by
    unfold ConvSearch.sum loopTurns convSearch
    simp
    omega
  obtain ⟨args₁, hloop₁, h₁, hfits₁⟩ := h.ones.shrinkLoop (fun i => by
    have := h.maxArgs_lt i
    omega) _ h.sized hturns
  have hsum₁ := h₁.sum_pos
  obtain ⟨args₂, hloop₂, h₂, hfits₂⟩ := h₁.growColumns (loopTurns key) hfits₁ (by omega)
  have hsum₂ := h₂.sum_pos
  obtain ⟨args, hloop, hsized, hfits⟩ := h₂.growLoop (loopTurns key) hfits₂ (by omega)
  refine ⟨args, fun fuel hfuel => ?_, hsized, hfits⟩
  rw [hloop₁ fuel hfuel, Option.bind_some, hloop₂ fuel hfuel, Option.bind_some, hloop fuel hfuel]

end ConvFits

/-- The mapping that `calc_conv_mapping` makes of the loop counts that it finds. -/
def tileMapping (key : MappingKey) (args : List Int) : Mapping :=
  let arg := fun i => args.getD i 0
  { totalLoop := {
      N := key.N, C := key.C, M := key.M, S := key.S, R := key.S, Q := key.P, P := key.P }
    tileOutLoop := {
      N := ceilDiv key.N (asUnsigned (arg 0))
      C := ceilDiv key.C (asUnsigned (arg 6))
      M := ceilDiv key.M (asUnsigned (arg 3))
      S := ceilDiv key.S (asUnsigned (arg 4))
      R := ceilDiv key.S (asUnsigned (arg 5))
      Q := ceilDiv key.P (asUnsigned (arg 2))
      P := ceilDiv key.P (asUnsigned (arg 1)) }
    tileInLoop := {
      N := asUnsigned (arg 0)
      C := asUnsigned (arg 6)
      M := asUnsigned (arg 3)
      S := asUnsigned (arg 4)
      R := asUnsigned (arg 5)
      Q := asUnsigned (arg 2)
      P := asUnsigned (arg 1) } }

theorem calcConvMapping_eq {config : SimulationConfig} {key : MappingKey} (h : ConvFits config key)
    (fuel : Nat) : calcConvMapping config fuel key =
      (((convSearch config key).shrinkLoop fuel (convSearch config key).maxArgs).bind fun args =>
        ((convSearch config key).growColumns fuel args).bind
          ((convSearch config key).growLoop fuel)).map (tileMapping key) := by
  have hdim : (config.tilerCore key.targetCore).dim ≠ 0 := Nat.ne_of_gt h.ones.dim_pos
  unfold calcConvMapping
  simp only
  rw [if_neg (by simp [hdim, h.precision_pos]), Option.map_bind]
  refine congrArg (Option.bind _) (funext fun args₁ => ?_)
  rw [Function.comp_apply, Option.map_bind]
  refine congrArg (Option.bind _) (funext fun args₂ => ?_)
  rw [Function.comp_apply, Option.map_eq_bind]
  rfl

/-- The tiles of loop counts that fit. -/
theorem tileMapping_fits {config : SimulationConfig} {key : MappingKey} (h : ConvFits config key)
    {args : List Int} (hargs : (convSearch config key).Sized args)
    (hfits : (convSearch config key).fits args = true) :
    TilesFit config key (tileMapping key args) := by
  obtain ⟨hN, -, -, -, -, hNlt, hClt, hMlt, hSlt, hPlt⟩ := h.word
  obtain ⟨hQ, hR⟩ := h.conv
  have hcast : ∀ i, (asUnsigned (args.getD i 0) : Int) = args.getD i 0 := by
    intro i
    have hle := hargs.le i
    have hlt := h.maxArgs_lt i
    exact asUnsigned_of_lt (hargs.nonneg i) (by omega)
  have hcut : ∀ {total i : Nat}, i < 7 → total < 2 ^ 31 →
      (convSearch config key).maxArgs.getD i 0 = total →
      CutWell total (ceilDiv total (asUnsigned (args.getD i 0))) (asUnsigned (args.getD i 0)) := by
    intro total i hi htotal hmax
    have hpos := hargs.pos i hi
    have hle := hargs.le i
    have heq := hcast i
    exact cutWell_ceilDiv htotal (by omega) (by omega)
  have hbatch : asUnsigned (args.getD 0 0) = 1 := by
    have hpos := hargs.pos 0 (by decide)
    have hle : args.getD 0 0 ≤ 1 := hargs.le 0
    have heq := hcast 0
    omega
  have hrows : ∀ acc, (asUnsigned ((convSearch config key).rows acc args) : Int) =
      (convSearch config key).rows acc args := by
    intro acc
    obtain ⟨hnonneg, hle⟩ := hargs.rows_le h.ones.dim_pos h.ones.stride_pos acc
    have hlt := h.rows acc
    exact asUnsigned_of_lt hnonneg (by omega)
  have hlist : [((tileMapping key args).tileInLoop.N : Int), (tileMapping key args).tileInLoop.P,
      (tileMapping key args).tileInLoop.Q, (tileMapping key args).tileInLoop.M,
      (tileMapping key args).tileInLoop.S, (tileMapping key args).tileInLoop.R,
      (tileMapping key args).tileInLoop.C] = args := by
    unfold tileMapping
    simp only [hcast]
    exact (list_seven hargs.length).symm
  obtain ⟨hspad, hacc⟩ := of_decide_eq_true hfits
  refine ⟨?_, ?_, hcut (by decide) hClt rfl, hcut (by decide) hMlt rfl, hcut (by decide) hSlt rfl,
    hR ▸ hcut (by decide) hSlt rfl, hQ ▸ hcut (by decide) hPlt rfl, hcut (by decide) hPlt rfl, ?_, ?_⟩
  · show LoopCounts.mk key.N key.C key.M key.S key.S key.P key.P =
      LoopCounts.mk key.N key.C key.M key.S key.R key.Q key.P
    rw [← hR, ← hQ]
  · exact cutWell_ceilDiv hNlt (Nat.le_of_eq hbatch.symm) (hbatch ▸ hN)
  · rw [hlist, ← hrows]
    exact_mod_cast hspad
  · rw [hlist, ← hrows]
    exact_mod_cast hacc

/-- `calc_conv_mapping` ends, and its mapping cuts the layer into tiles that fit. -/
theorem calcConvMapping_fits {config : SimulationConfig} {key : MappingKey}
    (h : ConvFits config key) : ∃ mapping,
      (∀ fuel, loopTurns key < fuel → calcConvMapping config fuel key = some mapping) ∧
      TilesFit config key mapping := by
  obtain ⟨args, hsearch, hsized, hfits⟩ := h.search
  refine ⟨tileMapping key args, fun fuel hfuel => ?_, tileMapping_fits h hsized hfits⟩
  rw [calcConvMapping_eq h, hsearch fuel hfuel]
  rfl

/-- A layer that does not fit as a whole. -/
def smallConv : MappingKey := { N := 2, C := 3, M := 4, S := 3, R := 3, Q := 4, P := 4 }

def convArray : SimulationConfig :=
  { numCores := 1
    coreConfig := fun _ => { coreWidth := 8, coreHeight := 8, spadSize := 2, accumSpadSize := 2 }
    dramChannels := 1
    dramReqSize := 32
    precision := 4 }

theorem calcConvMapping_fits_smallConv : ∃ mapping,
    (∀ fuel, loopTurns smallConv < fuel → calcConvMapping convArray fuel smallConv = some mapping) ∧
    TilesFit convArray smallConv mapping := by
  have hones : (convSearch convArray smallConv).OnesFit :=
    ⟨by decide, by decide +kernel, by decide +kernel⟩
  exact calcConvMapping_fits ⟨by decide, by decide, hones, by decide, by decide +kernel⟩

end OnnxSim
