import Mathlib.Tactic.Ring
import OnnxSim.Operations.Attention

/-!
# Which attentions fit on chip

`calculate_loops` has two ways to cut an attention. Where the keys and values of a head fit beside one
query, a tile takes as many queries as fit. Otherwise the keys are cut into as many pieces as their
bytes ask for, and a tile takes one query. A tile fits in both memories exactly when a head fits with
one query as a whole, or the pieces hold few enough keys each (`Attention.fits_iff`): the pieces are
counted by bytes, but no tile holds a part of a key, and the scores of the heads of a group are
counted once.
-/

namespace OnnxSim

/-! ## Division in 32-bit words -/

theorem wrapSub_of_le {a b : Nat} (hba : b ≤ a) (ha : a < 2 ^ 32) : wrapSub a b = a - b := by
  unfold wrapSub wrap
  rw [show a + 2 ^ 32 - b = a - b + 2 ^ 32 by omega, Nat.add_mod_right]
  exact Nat.mod_eq_of_lt (by omega)

theorem ceilDiv_le_iff {a b c : Nat} (hb : 0 < b) (h : a + b ≤ 2 ^ 32) :
    ceilDiv a b ≤ c ↔ a ≤ c * b := by
  unfold ceilDiv
  rw [if_neg (Nat.ne_of_gt hb), wrap_of_lt (by omega), Nat.div_le_iff_le_mul_add_pred hb,
    Nat.mul_comm b c]
  omega

theorem lt_ceilDiv_iff {a b i : Nat} (hb : 0 < b) (h : a + b ≤ 2 ^ 32) :
    i < ceilDiv a b ↔ i * b < a := by
  rw [← Nat.not_le, ceilDiv_le_iff hb h, Nat.not_le]

/-- The quotient is 0 where the rounded dividend leaves the word. -/
theorem ceilDiv_pos_iff {a b : Nat} (ha : 0 < a) (hb : 0 < b) (halt : a < 2 ^ 32)
    (hblt : b ≤ 2 ^ 32) : 0 < ceilDiv a b ↔ a + b ≤ 2 ^ 32 := by
  constructor
  · intro hpos
    by_contra hgt
    have hwrap : wrap (a + b - 1) = a + b - 1 - 2 ^ 32 := by
      unfold wrap
      rw [Nat.mod_eq_sub_mod (by omega)]
      exact Nat.mod_eq_of_lt (by omega)
    unfold ceilDiv at hpos
    rw [if_neg (Nat.ne_of_gt hb), hwrap, Nat.div_eq_of_lt (by omega)] at hpos
    omega
  · intro h
    refine Nat.pos_of_ne_zero fun hzero => ?_
    rcases (ceilDiv_eq_zero_iff h).mp hzero with h0 | h0 <;> omega

theorem ceilDiv_lt (a b : Nat) : ceilDiv a b < 2 ^ 32 := by
  unfold ceilDiv
  split
  · decide
  · exact (Nat.div_le_self _ _).trans_lt (Nat.mod_lt _ (by decide))

theorem le_ceilDiv_mul_iff {a b : Nat} (ha : 0 < a) (hb : 0 < b) (halt : a < 2 ^ 32)
    (hblt : b ≤ 2 ^ 32) : a ≤ ceilDiv a b * b ↔ a + b ≤ 2 ^ 32 := by
  constructor
  · intro h
    refine (ceilDiv_pos_iff ha hb halt hblt).mp (Nat.pos_of_ne_zero fun hzero => ?_)
    rw [hzero] at h
    omega
  · exact fun h => (ceilDiv_le_iff hb h).mp (Nat.le_refl _)

namespace Attention

variable (op : Attention)

/-- The queries of a group of heads, a key and a value fit in the scratchpad, and the scores of the
group for one key in the accumulator. -/
structure RowsFit : Prop where
  nh_pos : 0 < op.nh
  nkvh_dvd : op.nkvh ∣ op.nh
  dk_pos : 0 < op.dk
  precision_pos : 0 < op.config.precision
  batchSize_pos : 0 < op.batchSize
  qLen_pos : 0 < op.qLen
  qLen_lt : op.qLen < 2 ^ 32
  seq_pos : 0 < op.seq
  seq_lt : op.seq < 2 ^ 32
  spad : (op.headsPerKv + 2) * op.dk * op.config.precision ≤ op.spadCapacity
  acc : (op.config.precision + 8) * op.headsPerKv ≤ op.accSpadCapacity

/-- Blocks of `qLen` queries and `seqLen` keys make tiles that fit. -/
structure Fits (mapping : Mapping) (qLen seqLen : Nat) : Prop where
  qLen_pos : 1 ≤ qLen
  seqLen_pos : 1 ≤ seqLen
  tiles : tileLoops mapping ≠ []
  spad : (2 * seqLen + op.headsPerKv * qLen) * op.dk * op.config.precision ≤ op.spadCapacity
  acc : op.headsPerKv * qLen * seqLen * op.config.precision ≤ op.accSpadCapacity
  covers : op.seq ≤ mapping.tileOutLoop.M * seqLen

/-- All keys and values of a head fit beside a query of its group. -/
def HeadFits : Prop :=
  (2 * op.seq + op.headsPerKv) * op.dk * op.config.precision ≤ op.spadCapacity ∧
    (op.seq * op.config.precision + 8) * op.headsPerKv ≤ op.accSpadCapacity

/-- The queries that fit with all keys of a head. -/
def queriesBesideHead : Nat :=
  min (min op.qLen (op.accSpadCapacity / ((op.seq * op.config.precision + 8) * op.headsPerKv)))
    ((op.spadCapacity - 2 * op.seq * op.dk * op.config.precision) /
      (op.headsPerKv * op.dk * op.config.precision))

/-- The pieces that the keys of a head are cut into for their bytes. -/
def keyPieces : Nat :=
  max (ceilDiv (wrap (op.seq * op.config.precision)) op.accSpadCapacity)
    (ceilDiv (wrap (2 * op.seq * op.dk * op.config.precision))
      (op.spadCapacity - op.headsPerKv * op.dk * op.config.precision))

/-- The keys that fit with one query of a group. -/
def keysBesideQuery : Nat :=
  min ((op.spadCapacity - op.headsPerKv * op.dk * op.config.precision) /
      (2 * op.dk * op.config.precision))
    (op.accSpadCapacity / (op.headsPerKv * op.config.precision))

/-- A head fits as a whole, or cut into its pieces; and the sums that count the tiles stay in a
word. -/
def Splits : Prop :=
  op.HeadFits ∧ ¬ 2 ^ 32 ∣ ceilDiv op.qLen op.queriesBesideHead * op.nkvh ∨
  1 < op.keyPieces ∧ op.seq ≤ op.keysBesideQuery * op.keyPieces ∧
    op.seq + op.keyPieces ≤ 2 ^ 32 ∧ op.seq + ceilDiv op.seq op.keyPieces ≤ 2 ^ 32 ∧
    ¬ 2 ^ 32 ∣ op.qLen * op.nkvh

variable {op}

/-! ## The sizes of one query -/

theorem spadCapacity_lt (op : Attention) : op.spadCapacity < 2 ^ 31 := by
  unfold spadCapacity wrap
  omega

theorem accSpadCapacity_lt (op : Attention) : op.accSpadCapacity < 2 ^ 31 := by
  unfold accSpadCapacity wrap
  omega

namespace RowsFit

variable (h : op.RowsFit)
include h

theorem nkvh_pos : 0 < op.nkvh := Nat.pos_of_dvd_of_pos h.nkvh_dvd h.nh_pos

theorem headsPerKv_pos : 0 < op.headsPerKv :=
  Nat.div_pos (Nat.le_of_dvd h.nh_pos h.nkvh_dvd) h.nkvh_pos

theorem row_pos : 0 < op.dk * op.config.precision := Nat.mul_pos h.dk_pos h.precision_pos

theorem query_pos : 0 < op.headsPerKv * op.dk * op.config.precision := by
  rw [Nat.mul_assoc]
  exact Nat.mul_pos h.headsPerKv_pos h.row_pos

/-- A key and a value fit beside a query. -/
theorem query_add_le : op.headsPerKv * op.dk * op.config.precision +
    2 * (op.dk * op.config.precision) ≤ op.spadCapacity := by
  have hspad := h.spad
  rw [Nat.mul_assoc, Nat.add_mul, ← Nat.mul_assoc op.headsPerKv] at hspad
  exact hspad

theorem perQuerySize_eq : op.perQuerySize = op.headsPerKv * op.dk * op.config.precision := by
  have hle := h.query_add_le
  have hlt := op.spadCapacity_lt
  exact wrap_of_lt (by omega)

theorem tilesPerHead_eq : op.tilesPerHead = op.keyPieces := by
  have hle := h.query_add_le
  have hlt := op.spadCapacity_lt
  unfold tilesPerHead keyPieces keyValueSize
  rw [h.perQuerySize_eq, wrapSub_of_le (by omega) (by omega)]

/-- `seqLen` keys fit with one query. -/
theorem keys_le_iff {seqLen : Nat} : seqLen ≤ op.keysBesideQuery ↔
    (2 * seqLen + op.headsPerKv * 1) * op.dk * op.config.precision ≤ op.spadCapacity ∧
      op.headsPerKv * 1 * seqLen * op.config.precision ≤ op.accSpadCapacity := by
  have hle := h.query_add_le
  have hrow := h.row_pos
  have hkeys : (2 * seqLen + op.headsPerKv * 1) * op.dk * op.config.precision =
      seqLen * (2 * op.dk * op.config.precision) +
        op.headsPerKv * op.dk * op.config.precision := by ring
  have hscores : op.headsPerKv * 1 * seqLen * op.config.precision =
      seqLen * (op.headsPerKv * op.config.precision) := by ring
  have hpair : 0 < 2 * op.dk * op.config.precision := by
    rw [Nat.mul_assoc]
    omega
  unfold keysBesideQuery
  rw [le_min_iff, Nat.le_div_iff_mul_le hpair,
    Nat.le_div_iff_mul_le (Nat.mul_pos h.headsPerKv_pos h.precision_pos), hkeys, hscores]
  constructor
  · rintro ⟨hspad, hacc⟩
    exact ⟨by omega, hacc⟩
  · rintro ⟨hspad, hacc⟩
    exact ⟨by omega, hacc⟩

/-! ## The two ways to cut -/

/-- A head that fits is one piece, and at least one query fits beside it. -/
theorem keyPieces_le_one (hfit : op.HeadFits) : op.keyPieces ≤ 1 := by
  obtain ⟨hspad, hacc⟩ := hfit
  have hs := op.spadCapacity_lt
  have ha := op.accSpadCapacity_lt
  have hle := h.query_add_le
  have hrow := h.row_pos
  have hkeys : 2 * op.seq * op.dk * op.config.precision ≤
      op.spadCapacity - op.headsPerKv * op.dk * op.config.precision := by
    rw [Nat.add_mul, Nat.add_mul] at hspad
    omega
  have hscores : op.seq * op.config.precision ≤ op.accSpadCapacity := by
    have := Nat.le_mul_of_pos_right (op.seq * op.config.precision + 8) h.headsPerKv_pos
    omega
  have hpos : 0 < op.accSpadCapacity := by
    have := Nat.mul_pos (Nat.add_pos_left h.precision_pos 8) h.headsPerKv_pos
    exact this.trans_le h.acc
  refine max_le ?_ ?_
  · rw [wrap_of_lt (by omega), ceilDiv_le_iff hpos (by omega)]
    omega
  · rw [wrap_of_lt (by omega), ceilDiv_le_iff (by omega) (by omega)]
    omega

omit h in
/-- The bytes of the keys and values of a head beside `qLen` queries. -/
theorem spad_eq (op : Attention) (qLen : Nat) :
    (2 * op.seq + op.headsPerKv * qLen) * op.dk * op.config.precision =
      2 * op.seq * op.dk * op.config.precision +
        qLen * (op.headsPerKv * op.dk * op.config.precision) := by
  ring

omit h in
/-- The bytes of the scores of `qLen` queries, without what `perQueryScores` adds to them. -/
theorem acc_eq (op : Attention) (qLen : Nat) :
    op.headsPerKv * qLen * op.seq * op.config.precision + qLen * (8 * op.headsPerKv) =
      qLen * ((op.seq * op.config.precision + 8) * op.headsPerKv) := by
  ring

theorem scores_pos : 0 < (op.seq * op.config.precision + 8) * op.headsPerKv :=
  Nat.mul_pos (Nat.add_pos_right _ (by decide)) h.headsPerKv_pos

/-- The words hold the sizes of the keys of a head and of its scores. -/
theorem queriesPerTile_eq
    (hkeys : 2 * op.seq * op.dk * op.config.precision ≤ op.spadCapacity)
    (hscores : (op.seq * op.config.precision + 8) * op.headsPerKv < 2 ^ 32) :
    op.queriesPerTile = some op.queriesBesideHead := by
  have hs := op.spadCapacity_lt
  have hquery := h.query_pos
  have hpos := h.scores_pos
  unfold queriesPerTile queriesBesideHead perQueryScores keyValueSize
  rw [h.perQuerySize_eq, Nat.mul_comm 2 4, wrap_of_lt hscores, wrap_of_lt (by omega),
    wrapSub_of_le hkeys (by omega), if_neg (by omega)]

theorem headFits_iff : op.HeadFits ↔
    2 * op.seq * op.dk * op.config.precision ≤ op.spadCapacity ∧
      (op.seq * op.config.precision + 8) * op.headsPerKv < 2 ^ 32 ∧ 1 ≤ op.queriesBesideHead := by
  have ha := op.accSpadCapacity_lt
  have hspad := spad_eq op 1
  rw [Nat.mul_one, Nat.one_mul] at hspad
  unfold HeadFits queriesBesideHead
  rw [le_min_iff, le_min_iff, Nat.one_le_div_iff h.scores_pos, Nat.one_le_div_iff h.query_pos, hspad]
  constructor
  · rintro ⟨hkeys, hscores⟩
    exact ⟨by omega, by omega, ⟨h.qLen_pos, hscores⟩, by omega⟩
  · rintro ⟨hkeys, -, ⟨-, hscores⟩, hquery⟩
    exact ⟨by omega, hscores⟩

/-- The queries that fit beside a head do. -/
theorem queriesBesideHead_fit
    (hkeys : 2 * op.seq * op.dk * op.config.precision ≤ op.spadCapacity) :
    (2 * op.seq + op.headsPerKv * op.queriesBesideHead) * op.dk * op.config.precision ≤
        op.spadCapacity ∧
      op.headsPerKv * op.queriesBesideHead * op.seq * op.config.precision ≤ op.accSpadCapacity := by
  have hspad : op.queriesBesideHead * (op.headsPerKv * op.dk * op.config.precision) ≤
      op.spadCapacity - 2 * op.seq * op.dk * op.config.precision :=
    (Nat.le_div_iff_mul_le h.query_pos).mp (min_le_right _ _)
  have hacc : op.queriesBesideHead * ((op.seq * op.config.precision + 8) * op.headsPerKv) ≤
      op.accSpadCapacity :=
    (Nat.le_div_iff_mul_le h.scores_pos).mp ((min_le_left _ _).trans (min_le_right _ _))
  rw [← acc_eq] at hacc
  rw [spad_eq]
  exact ⟨by omega, by omega⟩

/-- Where the keys are not cut, some queries fit beside them exactly when the head fits. -/
theorem whole_iff : (∃ qLen, op.queriesPerTile = some qLen ∧ 1 ≤ qLen ∧
      (2 * op.seq + op.headsPerKv * qLen) * op.dk * op.config.precision ≤ op.spadCapacity ∧
      op.headsPerKv * qLen * op.seq * op.config.precision ≤ op.accSpadCapacity) ↔ op.HeadFits := by
  constructor
  · rintro ⟨qLen, hq, hpos, hspad, hacc⟩
    have ha := op.accSpadCapacity_lt
    have hkeys : 2 * op.seq * op.dk * op.config.precision ≤ op.spadCapacity := by
      rw [spad_eq] at hspad
      omega
    have hscores : (op.seq * op.config.precision + 8) * op.headsPerKv < 2 ^ 32 := by
      have hone := acc_eq op 1
      rw [Nat.mul_one, Nat.one_mul, Nat.one_mul] at hone
      have hgroup : op.headsPerKv * op.seq * op.config.precision ≤ op.accSpadCapacity := by
        refine le_trans ?_ hacc
        exact Nat.mul_le_mul_right _ (Nat.mul_le_mul_right _ (Nat.le_mul_of_pos_right _ hpos))
      have height : 8 * op.headsPerKv ≤ op.accSpadCapacity :=
        (Nat.mul_le_mul_right _ (Nat.le_add_left 8 op.config.precision)).trans h.acc
      omega
    rw [h.queriesPerTile_eq hkeys hscores] at hq
    obtain rfl := Option.some.inj hq
    exact h.headFits_iff.mpr ⟨hkeys, hscores, hpos⟩
  · intro hfit
    obtain ⟨hkeys, hscores, hpos⟩ := h.headFits_iff.mp hfit
    exact ⟨_, h.queriesPerTile_eq hkeys hscores, hpos, h.queriesBesideHead_fit hkeys⟩

omit h in
theorem keyPieces_lt (op : Attention) : op.keyPieces < 2 ^ 32 :=
  max_lt (ceilDiv_lt _ _) (ceilDiv_lt _ _)

theorem seq_le_iff {seqLen : Nat} (hpos : 0 < seqLen) (hlt : seqLen ≤ 2 ^ 32) :
    op.seq ≤ ceilDiv op.seq seqLen * seqLen ↔ op.seq + seqLen ≤ 2 ^ 32 :=
  le_ceilDiv_mul_iff h.seq_pos hpos h.seq_lt hlt

/-- A head of one piece. -/
theorem fits_whole_iff (hone : op.keyPieces ≤ 1) :
    (∃ qLen seqLen outer, op.tileLens = some (qLen, seqLen, outer) ∧ outer ≠ 0 ∧ 1 ≤ qLen ∧
      1 ≤ seqLen ∧
      (2 * seqLen + op.headsPerKv * qLen) * op.dk * op.config.precision ≤ op.spadCapacity ∧
      op.headsPerKv * qLen * seqLen * op.config.precision ≤ op.accSpadCapacity ∧
      op.seq ≤ ceilDiv op.seq seqLen * seqLen) ↔
    op.HeadFits ∧ ¬ 2 ^ 32 ∣ ceilDiv op.qLen op.queriesBesideHead * op.nkvh := by
  have hlens : op.tileLens = op.queriesPerTile.map fun qLen =>
      (qLen, op.seq, wrap (ceilDiv op.qLen qLen * op.nkvh)) := by
    unfold tileLens
    rw [h.tilesPerHead_eq, if_neg (by omega)]
  rw [hlens, Nat.dvd_iff_mod_eq_zero]
  constructor
  · rintro ⟨qLen, seqLen, outer, hmap, houter, hq, -, hspad, hacc, -⟩
    obtain ⟨q, hsome, heq⟩ := Option.map_eq_some_iff.mp hmap
    simp only [Prod.mk.injEq] at heq
    obtain ⟨rfl, rfl, rfl⟩ := heq
    clear hmap
    have hfit := h.whole_iff.mp ⟨q, hsome, hq, hspad, hacc⟩
    obtain ⟨hkeys, hscores, -⟩ := h.headFits_iff.mp hfit
    rw [h.queriesPerTile_eq hkeys hscores] at hsome
    obtain rfl := Option.some.inj hsome
    exact ⟨hfit, houter⟩
  · rintro ⟨hfit, houter⟩
    obtain ⟨hkeys, hscores, -⟩ := h.headFits_iff.mp hfit
    obtain ⟨qLen, hsome, hq, hspad, hacc⟩ := h.whole_iff.mpr hfit
    have hqLen := hsome
    rw [h.queriesPerTile_eq hkeys hscores] at hqLen
    obtain rfl := Option.some.inj hqLen
    refine ⟨_, op.seq, _, Option.map_eq_some_iff.mpr ⟨_, hsome, rfl⟩, houter, hq, h.seq_pos, hspad,
      hacc, ?_⟩
    have hs := op.spadCapacity_lt
    have hle : 2 * op.seq ≤ 2 * op.seq * op.dk * op.config.precision := by
      rw [Nat.mul_assoc (2 * op.seq)]
      exact Nat.le_mul_of_pos_right _ h.row_pos
    exact (h.seq_le_iff h.seq_pos h.seq_lt.le).mpr (by omega)

/-- A head of several pieces. -/
theorem fits_pieces_iff (hmany : 1 < op.keyPieces) :
    (∃ qLen seqLen outer, op.tileLens = some (qLen, seqLen, outer) ∧ outer ≠ 0 ∧ 1 ≤ qLen ∧
      1 ≤ seqLen ∧
      (2 * seqLen + op.headsPerKv * qLen) * op.dk * op.config.precision ≤ op.spadCapacity ∧
      op.headsPerKv * qLen * seqLen * op.config.precision ≤ op.accSpadCapacity ∧
      op.seq ≤ ceilDiv op.seq seqLen * seqLen) ↔
    op.seq ≤ op.keysBesideQuery * op.keyPieces ∧ op.seq + op.keyPieces ≤ 2 ^ 32 ∧
      op.seq + ceilDiv op.seq op.keyPieces ≤ 2 ^ 32 ∧ ¬ 2 ^ 32 ∣ op.qLen * op.nkvh := by
  have hlens : op.tileLens = some (1, ceilDiv op.seq op.keyPieces, wrap (op.qLen * op.nkvh)) := by
    unfold tileLens
    rw [h.tilesPerHead_eq, if_pos hmany]
  have hpos : 0 < op.keyPieces := by omega
  have hpieces := keyPieces_lt op
  have hceil := ceilDiv_lt op.seq op.keyPieces
  rw [hlens, Nat.dvd_iff_mod_eq_zero]
  constructor
  · rintro ⟨qLen, seqLen, outer, hsome, houter, -, hseqLen, hspad, hacc, hcovers⟩
    simp only [Option.some.injEq, Prod.mk.injEq] at hsome
    obtain ⟨rfl, rfl, rfl⟩ := hsome
    have hsum := (ceilDiv_pos_iff h.seq_pos hpos h.seq_lt hpieces.le).mp hseqLen
    have hkeys := h.keys_le_iff.mpr ⟨hspad, hacc⟩
    exact ⟨(ceilDiv_le_iff hpos hsum).mp hkeys, hsum, (h.seq_le_iff hseqLen hceil.le).mp hcovers,
      houter⟩
  · rintro ⟨hkeys, hsum, hsum', houter⟩
    have hseqLen := (ceilDiv_pos_iff h.seq_pos hpos h.seq_lt hpieces.le).mpr hsum
    obtain ⟨hspad, hacc⟩ := h.keys_le_iff.mp ((ceilDiv_le_iff hpos hsum).mpr hkeys)
    exact ⟨_, _, _, rfl, houter, Nat.le_refl 1, hseqLen, hspad, hacc,
      (h.seq_le_iff hseqLen hceil.le).mpr hsum'⟩

/-- The mapping has the blocks of `tileLens`. -/
theorem exists_fits_iff : (∃ mapping qLen seqLen outer, op.calculateLoops = some mapping ∧
      op.tileLens = some (qLen, seqLen, outer) ∧ op.Fits mapping qLen seqLen) ↔
    ∃ qLen seqLen outer, op.tileLens = some (qLen, seqLen, outer) ∧ outer ≠ 0 ∧ 1 ≤ qLen ∧
      1 ≤ seqLen ∧
      (2 * seqLen + op.headsPerKv * qLen) * op.dk * op.config.precision ≤ op.spadCapacity ∧
      op.headsPerKv * qLen * seqLen * op.config.precision ≤ op.accSpadCapacity ∧
      op.seq ≤ ceilDiv op.seq seqLen * seqLen := by
  have hloops : op.calculateLoops = op.tileLens.map fun lens =>
      let inner := wrap (lens.1 * op.headsPerKv)
      { totalLoop := { N := wrap (inner * lens.2.2), C := op.dk, M := op.seq }
        tileInLoop := { N := inner, C := op.dk, M := lens.2.1 }
        tileOutLoop := { N := lens.2.2, C := 1, M := ceilDiv op.seq lens.2.1 } } := by
    unfold calculateLoops
    rw [if_neg (Nat.ne_of_gt h.batchSize_pos), if_neg (Nat.ne_of_gt h.nkvh_pos)]
  rw [hloops]
  constructor
  · rintro ⟨mapping, qLen, seqLen, outer, hmap, hlens, hfits⟩
    rw [hlens] at hmap
    obtain rfl := Option.some.inj hmap
    obtain ⟨houter, -⟩ := not_or.mp (mt tileLoops_eq_nil_iff.mpr hfits.tiles)
    exact ⟨qLen, seqLen, outer, hlens, houter, hfits.qLen_pos, hfits.seqLen_pos, hfits.spad,
      hfits.acc, hfits.covers⟩
  · rintro ⟨qLen, seqLen, outer, hlens, houter, hq, hseqLen, hspad, hacc, hcovers⟩
    refine ⟨_, qLen, seqLen, outer, by rw [hlens]; rfl, hlens, hq, hseqLen, ?_, hspad, hacc, hcovers⟩
    refine mt tileLoops_eq_nil_iff.mp (not_or.mpr ⟨houter, fun hzero => ?_⟩)
    have hseq := h.seq_pos
    change ceilDiv op.seq seqLen = 0 at hzero
    rw [hzero] at hcovers
    omega

end RowsFit

/-- `calculate_loops` cuts an attention into tiles that fit exactly when its heads fit as a whole, or
in the pieces they are cut into. -/
theorem fits_iff (h : op.RowsFit) :
    (∃ mapping qLen seqLen outer, op.calculateLoops = some mapping ∧
      op.tileLens = some (qLen, seqLen, outer) ∧ op.Fits mapping qLen seqLen) ↔ op.Splits := by
  rw [h.exists_fits_iff]
  unfold Splits
  rcases Nat.lt_or_ge 1 op.keyPieces with hmany | hone
  · rw [h.fits_pieces_iff hmany]
    constructor
    · exact fun hpieces => .inr ⟨hmany, hpieces⟩
    · rintro (⟨hfit, -⟩ | ⟨-, hpieces⟩)
      · exact absurd (h.keyPieces_le_one hfit) (Nat.not_le.mpr hmany)
      · exact hpieces
  · rw [h.fits_whole_iff hone]
    constructor
    · exact fun hwhole => .inl hwhole
    · rintro (hwhole | ⟨hmany, -⟩)
      · exact hwhole
      · exact absurd hone (Nat.not_le.mpr hmany)

/-! ## Three keys in two pieces -/

/-- One head of three keys, with room for a query and one and a half keys with their values. -/
def threeKeys : Attention where
  id := 0
  inputs := [0, 1, 2]
  outputs := [3]
  config := {
    numCores := 1
    dramChannels := 1
    dramReqSize := 32
    precision := 2
    coreConfig := fun _ => { spadSize := 1, accumSpadSize := 1 } }
  qLen := 1
  seq := 3
  nh := 1
  nkvh := 1
  dk := 64

theorem threeKeys_rowsFit : threeKeys.RowsFit := by
  constructor <;> decide

/-- Two pieces of three keys are of two keys, which do not fit. -/
theorem threeKeys_not_fits : ¬ ∀ op : Attention, op.RowsFit →
    ∃ mapping qLen seqLen outer, op.calculateLoops = some mapping ∧
      op.tileLens = some (qLen, seqLen, outer) ∧ op.Fits mapping qLen seqLen := by
  intro hall
  obtain ⟨mapping, qLen, seqLen, outer, -, hlens, hfits⟩ := hall threeKeys threeKeys_rowsFit
  have hvalue : threeKeys.tileLens = some (1, 2, 1) := by decide
  rw [hvalue] at hlens
  simp only [Option.some.injEq, Prod.mk.injEq] at hlens
  obtain ⟨rfl, rfl, -⟩ := hlens
  exact absurd hfits.spad (by decide)

/-- The criterion for these keys. -/
theorem fits_iff_threeKeys :
    (∃ mapping qLen seqLen outer, threeKeys.calculateLoops = some mapping ∧
      threeKeys.tileLens = some (qLen, seqLen, outer) ∧ threeKeys.Fits mapping qLen seqLen) ↔
      threeKeys.Splits :=
  fits_iff threeKeys_rowsFit

end Attention

end OnnxSim
