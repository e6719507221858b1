import OnnxSim.Operations.GemmBlocks

/-!
# What the search for the tiling of a convolution keeps

The loop counts of `calc_conv_mapping` stay between zero and what it starts from, whatever the sizes of
the memories are, so its mapping cuts the seven dimensions of the key (`calcConvMapping_cuts`).
-/

namespace OnnxSim

/-- A mapping cuts the dimensions of a convolution. -/
structure Cuts (key : MappingKey) (mapping : Mapping) : Prop where
  total : mapping.totalLoop = key.toLoopCounts
  N : CutInto mapping.tileInLoop.N key.N mapping.tileOutLoop.N mapping.tileInLoop.N
  C : CutInto mapping.tileInLoop.C key.C mapping.tileOutLoop.C mapping.tileInLoop.C
  M : CutInto mapping.tileInLoop.M key.M mapping.tileOutLoop.M mapping.tileInLoop.M
  S : CutInto mapping.tileInLoop.S key.S mapping.tileOutLoop.S mapping.tileInLoop.S
  R : CutInto mapping.tileInLoop.R key.R mapping.tileOutLoop.R mapping.tileInLoop.R
  Q : CutInto mapping.tileInLoop.Q key.Q mapping.tileOutLoop.Q mapping.tileInLoop.Q
  P : CutInto mapping.tileInLoop.P key.P mapping.tileOutLoop.P mapping.tileInLoop.P

/-- Each of the outer loops of a mapping makes a turn. -/
def Mapping.Turns (mapping : Mapping) : Prop :=
  let out := mapping.tileOutLoop
  0 < out.N ∧ 0 < out.C ∧ 0 < out.M ∧ 0 < out.S ∧ 0 < out.R ∧ 0 < out.Q ∧ 0 < out.P

theorem asUnsigned_of_lt {x : Int} (hpos : 0 ≤ x) (hlt : x < 2 ^ 32) : (asUnsigned x : Int) = x := by
  unfold asUnsigned
  rw [Int.emod_eq_of_lt hpos hlt]
  exact Int.toNat_of_nonneg hpos

theorem asUnsigned_lt (x : Int) : asUnsigned x < 2 ^ 32 := by
  unfold asUnsigned
  omega

/-- `ceil_div` is 0 where its sum wraps. -/
theorem ceilDiv_cut {total inner : Nat} (htotal : total < 2 ^ 32) (hinner : inner < 2 ^ 32)
    (hpos : 0 < ceilDiv total inner) : CutInto inner total (ceilDiv total inner) inner := by
  unfold ceilDiv at hpos ⊢
  split at hpos
  · omega
  · rename_i hne
    have hfits : total + inner - 1 < 2 ^ 32 := by
      by_contra hwrap
      have hsmall : wrap (total + inner - 1) < inner := by
        unfold wrap
        omega
      rw [Nat.div_eq_of_lt hsmall] at hpos
      omega
    have hinner_pos : 0 < inner := Nat.pos_of_ne_zero hne
    rw [if_neg hne, wrap_of_lt hfits]
    exact ⟨hinner_pos, Nat.dvd_refl inner, GemmMapping.le_ceilDiv_mul hinner_pos,
      fun t ht => GemmMapping.mul_lt_of_lt_ceilDiv hinner_pos ht⟩

namespace ConvSearch

variable {c : ConvSearch} {args args' : List Int}

/-- The invariant of the search. -/
structure Bounded (c : ConvSearch) (args : List Int) : Prop where
  length : args.length = 7
  nonneg : ∀ i, 0 ≤ args.getD i 0
  le : ∀ i, args.getD i 0 ≤ c.maxArgs.getD i 0

theorem Bounded.getD_set (h : c.Bounded args) {i : Nat} (hi : i < 7) (x : Int) (j : Nat) :
    (args.set i x).getD j 0 = if i = j then x else args.getD j 0 := by
  rw [List.getD_eq_getElem?_getD, List.getElem?_set, h.length, List.getD_eq_getElem?_getD]
  simp only [hi, if_true]
  split <;> rfl

theorem Bounded.set (h : c.Bounded args) {i : Nat} {x : Int} (hi : i < 7) (hpos : 0 ≤ x)
    (hle : x ≤ c.maxArgs.getD i 0) : c.Bounded (args.set i x) := by
  refine ⟨by rw [List.length_set, h.length], fun j => ?_, fun j => ?_⟩
  · rw [h.getD_set hi]
    split
    · exact hpos
    · exact h.nonneg j
  · rw [h.getD_set hi]
    split
    · rename_i hij
      exact hij ▸ hle
    · exact h.le j

/-! ## The first loop -/

/-- With no loop count above zero the tile takes no rows. -/
theorem fits_of_zero (h : ∀ i, args.getD i 0 = 0) : c.fits args = true := by
  have hrows : ∀ acc, c.rows acc args = 0 := by
    intro acc
    unfold rows calcConvRows
    simp only [h]
    simp
  unfold fits
  rw [hrows, hrows]
  simp [asUnsigned]

/-- The columns are left out of the comparison only where there are several rows. -/
def Skipped (c : ConvSearch) (args : List Int) (i : Nat) : Prop :=
  i = 2 ∧ asUnsigned (args.getD i 0) ≤ c.core.dim ∧ 1 < args.getD 1 0

theorem largest_spec (c : ConvSearch) (args : List Int) :
    (c.largest args = (-1, -1) ∨ ∃ i : Nat, c.largest args = (args.getD i 0, (i : Int))) ∧
      ∀ i < 7, ¬ c.Skipped args i → args.getD i 0 ≤ (c.largest args).1 := by
  unfold largest
  induction 7 with
  | zero => simp
  | succ n ih =>
    obtain ⟨hplace, hmax⟩ := ih
    rw [List.range_succ, List.foldl_append, List.foldl_cons, List.foldl_nil]
    split
    · rename_i hnew
      refine ⟨.inr ⟨n, rfl⟩, fun i hi hskip => ?_⟩
      rcases Nat.lt_succ_iff_lt_or_eq.mp hi with hlt | rfl
      · exact Int.le_trans (hmax i hlt hskip) (Int.le_of_lt hnew.2)
      · exact Int.le_refl _
    · rename_i hold
      refine ⟨hplace, fun i hi hskip => ?_⟩
      rcases Nat.lt_succ_iff_lt_or_eq.mp hi with hlt | rfl
      · exact hmax i hlt hskip
      · by_contra hgt
        exact hold ⟨hskip, by omega⟩

/-- What the first loop reduces is not zero. -/
theorem largest_pos (hargs : c.Bounded args) (hfits : c.fits args ≠ true) :
    ∃ i : Nat, i < 7 ∧ (c.largest args).2 = i ∧ 0 < args.getD i 0 := by
  obtain ⟨hplace, hmax⟩ := c.largest_spec args
  have hend : ∀ i, 7 ≤ i → args.getD i 0 = 0 := by
    intro i hi
    rw [List.getD_eq_getElem?_getD, List.getElem?_eq_none (by rw [hargs.length]; exact hi)]
    rfl
  have hpos : 0 < (c.largest args).1 := by
    by_contra hle
    refine hfits (fits_of_zero fun i => ?_)
    have hrows := hmax 1 (by decide) fun h => absurd h.1 (by decide)
    rcases Nat.lt_or_ge i 7 with hi | hi
    · have hcount := hmax i hi fun h => by
        have := h.2.2
        omega
      have := hargs.nonneg i
      omega
    · exact hend i hi
  obtain hnone | ⟨i, hi⟩ := hplace
  · rw [hnone] at hpos
    exact absurd hpos (by decide)
  · rw [hi] at hpos ⊢
    refine ⟨i, ?_, rfl, hpos⟩
    by_contra hge
    rw [hend i (by omega)] at hpos
    exact Int.lt_irrefl 0 hpos

theorem shrink_bounded (hmax : ∀ i, c.maxArgs.getD i 0 < 2 ^ 32) (hargs : c.Bounded args)
    (hfits : c.fits args ≠ true) (h : c.shrink args = some args') : c.Bounded args' := by
  obtain ⟨i, hi, hplace, hpos⟩ := largest_pos hargs hfits
  have hle := hargs.le i
  have hword := asUnsigned_of_lt (hargs.nonneg i) (Int.lt_of_le_of_lt hle (hmax i))
  unfold shrink at h
  rw [hplace, if_neg (by omega)] at h
  simp only [Int.toNat_natCast] at h
  generalize args.getD i 0 = x at h hle hword hpos
  generalize asUnsigned x = n at h hword
  split at h
  · obtain rfl := Option.some.inj h
    -- channels are reduced to the multiple of `dim` below
    have hnext : ∀ y : Int, 0 ≤ y → y ≤ x →
        c.Bounded (args.set i (if y = 0 then 1 else y)) := by
      intro y hy hyx
      refine hargs.set hi ?_ ?_ <;> split <;> omega
    split
    · refine hnext _ (Int.mul_nonneg (Int.ediv_nonneg (Int.natCast_nonneg _) (Int.natCast_nonneg _))
        (Int.natCast_nonneg _)) ?_
      rw [← hword]
      exact_mod_cast Nat.div_mul_le_self n c.core.dim
    · rename_i hdvd
      have hdim : c.core.dim ≤ n :=
        Nat.le_of_dvd (by omega) (Nat.dvd_of_mod_eq_zero (Decidable.not_not.mp hdvd))
      exact hnext _ (by omega) (by omega)
  · obtain rfl := Option.some.inj h
    exact hargs.set hi (by omega) (by omega)

theorem shrinkLoop_bounded (hmax : ∀ i, c.maxArgs.getD i 0 < 2 ^ 32) {fuel : Nat}
    (hargs : c.Bounded args) (h : c.shrinkLoop fuel args = some args') : c.Bounded args' := by
  induction fuel generalizing args with
  | zero => cases h
  | succ fuel ih =>
    unfold shrinkLoop at h
    split at h
    · obtain rfl := Option.some.inj h
      exact hargs
    · rename_i hfits
      obtain ⟨args₁, hshrink, h⟩ := Option.bind_eq_some_iff.mp h
      exact ih (shrink_bounded hmax hargs hfits hshrink) h

/-! ## The other loops -/

theorem grown_bounded (hargs : c.Bounded args) {i : Nat} (hi : i < 7)
    (hle : (grown args i).getD i 0 ≤ c.maxArgs.getD i 0) : c.Bounded (grown args i) := by
  unfold grown at hle ⊢
  rw [hargs.getD_set hi, if_pos rfl] at hle
  have hpos := hargs.nonneg i
  exact hargs.set hi (by omega) hle

theorem growColumns_bounded {fuel : Nat} (hargs : c.Bounded args)
    (h : c.growColumns fuel args = some args') : c.Bounded args' := by
  induction fuel generalizing args with
  | zero => cases h
  | succ fuel ih =>
    unfold growColumns at h
    simp only at h
    split at h
    · rename_i hroom
      exact ih (grown_bounded hargs (by decide) hroom.1) h
    · obtain rfl := Option.some.inj h
      exact hargs

theorem growEach_bounded (hargs : c.Bounded args) : c.Bounded (c.growEach args).1 := by
  have hloop : ∀ n ≤ 7, c.Bounded ((List.range n).foldl (fun st i =>
      let candidate := grown st.1 i
      if candidate.getD i 0 ≤ c.maxArgs.getD i 0 ∧ c.fits candidate ∧ c.leavesRoom st.1 then
        (candidate, true)
      else st) (args, false)).1 := by
    intro n hn
    induction n with
    | zero => exact hargs
    | succ n ih =>
      rw [List.range_succ, List.foldl_append, List.foldl_cons, List.foldl_nil]
      simp only
      split
      · rename_i hroom
        exact grown_bounded (ih (by omega)) (by omega) hroom.1
      · exact ih (by omega)
  exact hloop 7 (Nat.le_refl 7)

theorem growLoop_bounded {fuel : Nat} (hargs : c.Bounded args)
    (h : c.growLoop fuel args = some args') : c.Bounded args' := by
  induction fuel generalizing args with
  | zero => cases h
  | succ fuel ih =>
    have hnext := growEach_bounded hargs
    unfold growLoop at h
    split at h
    · rename_i args₁ heach
      rw [heach] at hnext
      exact ih hnext h
    · rename_i args₁ heach
      rw [heach] at hnext
      obtain rfl := Option.some.inj h
      exact hnext

end ConvSearch

/-! ## The mapping -/

/-- The mapping of `calc_conv_mapping` cuts the dimensions of its key, and a tile has one batch. -/
theorem calcConvMapping_cuts {config : SimulationConfig} {fuel : Nat} {key : MappingKey}
    {mapping : Mapping} (hconv : key.IsConv)
    (hwords : ∀ d ∈ [key.N, key.C, key.M, key.S, key.P], d < 2 ^ 32)
    (h : calcConvMapping config fuel key = some mapping) (hturns : mapping.Turns) :
    Cuts key mapping ∧ mapping.tileInLoop.N = 1 := by
  obtain ⟨hQ, hR⟩ := hconv
  simp only [List.forall_mem_cons, List.not_mem_nil, false_implies, implies_true, and_true]
    at hwords
  obtain ⟨hN, hC, hM, hSw, hPw⟩ := hwords
  unfold calcConvMapping at h
  simp only at h
  split at h
  · cases h
  · obtain ⟨args₁, hshrink, h⟩ := Option.bind_eq_some_iff.mp h
    obtain ⟨args₂, hcolumns, h⟩ := Option.bind_eq_some_iff.mp h
    obtain ⟨args, hgrow, h⟩ := Option.bind_eq_some_iff.mp h
    obtain rfl := Option.some.inj h
    have hword : ∀ i, 0 ≤ [(1 : Int), key.P, key.P, key.M, key.S, key.S, key.C].getD i 0 ∧
        [(1 : Int), key.P, key.P, key.M, key.S, key.S, key.C].getD i 0 < 2 ^ 32 := by
      intro i
      rw [List.getD_eq_getElem?_getD]
      cases hi : [(1 : Int), key.P, key.P, key.M, key.S, key.S, key.C][i]? with
      | none => decide
      | some x =>
        have hmem := List.mem_of_getElem? hi
        simp only [List.mem_cons, List.not_mem_nil, or_false] at hmem
        simp only [Option.getD_some]
        omega
    have hargs := ConvSearch.growLoop_bounded (ConvSearch.growColumns_bounded
      (ConvSearch.shrinkLoop_bounded (fun i => (hword i).2)
        ⟨rfl, fun i => (hword i).1, fun i => Int.le_refl _⟩ hshrink) hcolumns) hgrow
    obtain ⟨houtN, houtC, houtM, houtS, houtR, houtQ, houtP⟩ := hturns
    have hcut : ∀ {total i : Nat}, total < 2 ^ 32 → 0 < ceilDiv total (asUnsigned (args.getD i 0)) →
        CutInto (asUnsigned (args.getD i 0)) total (ceilDiv total (asUnsigned (args.getD i 0)))
          (asUnsigned (args.getD i 0)) :=
      fun htotal hpos => ceilDiv_cut htotal (asUnsigned_lt _) hpos
    have hbatch := hcut hN houtN
    refine ⟨⟨?_, hbatch, hcut hC houtC, hcut hM houtM, hcut hSw houtS, ?_, ?_, hcut hPw houtP⟩, ?_⟩
    · show LoopCounts.mk key.N key.C key.M key.S key.S key.P key.P =
        LoopCounts.mk key.N key.C key.M key.S key.R key.Q key.P
      rw [← hR, ← hQ]
    · rw [← hR]
      exact hcut hSw houtR
    · rw [← hQ]
      exact hcut hPw houtQ
    · have hone : args.getD 0 0 ≤ 1 := hargs.le 0
      have hinner : 0 < asUnsigned (args.getD 0 0) := hbatch.inner_pos
      have heq := asUnsigned_of_lt (hargs.nonneg 0) (by omega)
      show asUnsigned (args.getD 0 0) = 1
      omega

/-- So does that of `gemm_mapping`, which is asked for a convolution of single pixels. -/
theorem gemmMapping_cuts {config : SimulationConfig} {key : MappingKey} {mapping : Mapping}
    (hgemm : key.IsGemm)
    (hsquare : (config.tilerCore key.targetCore).dim = (config.tilerCore key.targetCore).width)
    (hdim : 0 < (config.tilerCore key.targetCore).dim) (hprecision : 0 < config.precision)
    (hN : 0 < key.N) (hC : 0 < key.C) (hM : 0 < key.M) (h : gemmMapping config key = some mapping) :
    Cuts key mapping := by
  obtain ⟨hP, hQ, hS, hR⟩ := hgemm
  have hone : CutInto 1 1 1 1 :=
    ⟨Nat.one_pos, Nat.dvd_refl 1, Nat.le_refl 1, fun t ht => by omega⟩
  obtain ⟨mapping', hmapping, -, -, -, hcutN, hcutC, hcutM⟩ :=
    gemmMapping_cut hsquare hdim hprecision hN hC hM
  obtain rfl : mapping = mapping' := Option.some.inj (h.symm.trans hmapping)
  unfold gemmMapping at h
  simp only at h
  split at h
  · cases h
  · obtain rfl := Option.some.inj h
    refine ⟨?_, hcutN.whole, hcutC.whole, hcutM.whole, ?_, ?_, ?_, ?_⟩
    · show _ = LoopCounts.mk key.N key.C key.M key.S key.R key.Q key.P
      rw [hS, hR, hQ, hP]
    · exact hS ▸ hone
    · exact hR ▸ hone
    · exact hQ ▸ hone
    · exact hP ▸ hone

end OnnxSim
