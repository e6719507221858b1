import OnnxSim.Operations.ConvChunks
import OnnxSim.Operations.ConvTiles

/-!
# The inputs that a convolution loads

A tile loads one window of the input. It starts at the number of the tile's first output position, without
the stride and the padding, and only every `stride`th row and column of it is loaded. The tiles load what
their outputs need exactly if the needed rows and columns are among these (`ConvWS.loadsUsed_iff`), as for
a stride of 1 and a padding that keeps the size (`ConvWS.windowHolds_of_samePadding`).
-/

namespace OnnxSim

namespace ConvWS

variable (op : ConvWS) (mapping : Mapping)

/-- The row of the input, for axis 0, or the column, for axis 1, that an output position needs for a
position of the kernel. -/
def inputCoord (axis q s : Nat) : Int :=
  q * op.strides.getD axis 0 + s * op.dilations.getD axis 0 - op.pads.getD axis 0

/-- The row and the column are of the input. -/
def Inside (row col : Int) : Prop :=
  (0 ≤ row ∧ row < op.inputShape.getD op.hdim 0) ∧ 0 ≤ col ∧ col < op.inputShape.getD op.wdim 0

/-- The chunk of an element of the input. -/
def inputChunk (n h w c : Nat) : AddrType :=
  op.getOperandAddr INPUT_OPERAND + op.makeActivationAddress n h w c op.inputShape

/-- Number `x` of a dimension is in tile `t`. -/
def InTile (inner total t x : Nat) : Prop := t * inner ≤ x ∧ x < t * inner + inner ∧ x < total

/-- Each tile loads the inputs that its outputs need. -/
def LoadsUsed (tiles : List Tile) : Prop :=
  ∀ tile ∈ tiles, ∀ n q p s r c,
    InTile mapping.tileInLoop.N op.key.N tile.batch n →
    InTile mapping.tileInLoop.Q op.key.Q tile.Q q → InTile mapping.tileInLoop.P op.key.P tile.P p →
    InTile mapping.tileInLoop.S op.key.S tile.S s → InTile mapping.tileInLoop.R op.key.R tile.R r →
    InTile mapping.tileInLoop.C op.key.C tile.C c →
    op.Inside (op.inputCoord 0 q s) (op.inputCoord 1 p r) →
      Touched tile.instructions .MOVIN INPUT_OPERAND
        (op.inputChunk n (op.inputCoord 0 q s).toNat (op.inputCoord 1 p r).toNat c)

/-- A row or column is in the window of the tile that starts at output position `offset` and has `len`
positions, and its distance from the start of the window is a multiple of the stride. -/
def WindowHolds (axis offset len : Nat) (x : Int) : Prop :=
  0 ≤ x - op.inputOffset axis offset ∧ x - op.inputOffset axis offset < op.inputSize axis len ∧
    (op.strides.getD axis 0 : Int) ∣ x - op.inputOffset axis offset

/-- The windows of the tiles hold the inputs that their outputs need. -/
def WindowsHold : Prop :=
  ∀ q < op.key.Q, ∀ p < op.key.P, ∀ s < op.key.S, ∀ r < op.key.R,
    op.Inside (op.inputCoord 0 q s) (op.inputCoord 1 p r) →
      op.WindowHolds 0 (q / mapping.tileInLoop.Q * mapping.tileInLoop.Q) mapping.tileInLoop.Q
          (op.inputCoord 0 q s) ∧
        op.WindowHolds 1 (p / mapping.tileInLoop.P * mapping.tileInLoop.P) mapping.tileInLoop.P
          (op.inputCoord 1 p r)

variable {op mapping} {tile : Tile}

theorem InTile.tile_eq {inner total t x : Nat} (h : InTile inner total t x) : x / inner = t := by
  obtain ⟨hle, hlt, -⟩ := h
  exact Nat.div_eq_of_lt_le hle (by rwa [Nat.succ_mul])

theorem inTile_div {inner total x : Nat} (hinner : 0 < inner) (hx : x < total) :
    InTile inner total (x / inner) x := by
  have hdiv := Nat.div_add_mod' x inner
  have hmod := Nat.mod_lt x hinner
  exact ⟨by omega, by omega, hx⟩

theorem inTile_zero {inner total : Nat} (hinner : 0 < inner) (htotal : 0 < total) :
    InTile inner total 0 0 :=
  ⟨by omega, by omega, htotal⟩

/-! ## What a tile loads -/

/-- The steps of a loop over a window. -/
theorem exists_window_iff {axis offset len : Nat} {x : Int} (hstride : 0 < op.strides.getD axis 0) :
    (∃ i ∈ steps (op.inputSize axis len) (op.strides.getD axis 0),
      x = op.inputOffset axis offset + i) ↔ op.WindowHolds axis offset len x := by
  unfold WindowHolds
  generalize op.inputOffset axis offset = start
  constructor
  · rintro ⟨i, hi, rfl⟩
    obtain ⟨hlt, hdvd⟩ := (mem_steps hstride).mp hi
    rw [show start + (i : Int) - start = i by omega]
    exact ⟨by omega, by omega, Int.natCast_dvd_natCast.mpr hdvd⟩
  · rintro ⟨hle, hlt, hdvd⟩
    refine ⟨(x - start).toNat, (mem_steps hstride).mpr ⟨by omega, ?_⟩, by omega⟩
    rwa [← Int.natCast_dvd_natCast, Int.toNat_of_nonneg hle]

/-- The MOVIN of the activation is the one that loads from the input. -/
theorem Made.touched_iff {is : List Instruction} (h : op.Made mapping tile is) {a : AddrType} :
    Touched is .MOVIN INPUT_OPERAND a ↔ a ∈ (op.activationMovin tile mapping).srcAddrs := by
  unfold Touched
  rw [h.sections]
  constructor
  · rintro ⟨i, hi, hopcode, hid, ha⟩
    rcases List.mem_append.mp hi with hi | hi
    · rcases List.mem_append.mp hi with hi | hi
      · rcases List.mem_cons.mp hi with rfl | hi
        · exact ha
        · obtain ⟨it, -, rfl⟩ := List.mem_map.mp hi
          cases hid
      · obtain ⟨it, -, hi⟩ := List.mem_flatMap.mp hi
        obtain hcompute | hcompute := opcode_of_computes hi <;> simp [hcompute] at hopcode
    · obtain hstore | hstore := opcode_of_stores hi <;> simp [hstore] at hopcode
  · intro ha
    exact ⟨_, List.mem_append_left _ (List.mem_append_left _ List.mem_cons_self), rfl, rfl, ha⟩

theorem mem_channels {len offset total c : Nat} :
    c ∈ (List.range len).takeWhile (fun c => offset + c < total) ↔
      c < len ∧ offset + c < total := by
  rw [Blocks.takeWhile_eq_filter, List.mem_filter, List.mem_range, decide_eq_true_eq]
  refine List.pairwise_lt_range.imp fun hlt => ?_
  simp only [decide_eq_true_eq]
  omega

theorem Made.touched_activation_iff {is : List Instruction} (h : op.Made mapping tile is)
    (htotal : mapping.totalLoop = op.key.toLoopCounts) {a : AddrType} :
    Touched is .MOVIN INPUT_OPERAND a ↔ ∃ n < mapping.tileInLoop.N, ∃ row col : Int,
      op.WindowHolds 0 (tile.Q * mapping.tileInLoop.Q) mapping.tileInLoop.Q row ∧
        op.WindowHolds 1 (tile.P * mapping.tileInLoop.P) mapping.tileInLoop.P col ∧
          op.Inside row col ∧ ∃ c, InTile mapping.tileInLoop.C op.key.C tile.C c ∧
            a = op.inputChunk (tile.batch * mapping.tileInLoop.N + n) row.toNat col.toNat c := by
  rw [h.touched_iff]
  unfold activationMovin
  simp only [mem_addrSet, List.bind_eq_flatMap, List.pure_def, List.mem_flatMap, List.mem_range,
    List.mem_filterMap, List.mem_singleton, mem_channels, htotal]
  constructor
  · rintro ⟨n, hn, _, ⟨i, hi, rfl⟩, _, ⟨j, hj, rfl⟩, c, ⟨hc, hctotal⟩, ha⟩
    split at ha
    · cases ha
    · rename_i hin
      obtain rfl := Option.some.inj ha
      refine ⟨n, hn, _, _, (exists_window_iff h.strideH_pos).mp ⟨i, hi, rfl⟩,
        (exists_window_iff h.strideW_pos).mp ⟨j, hj, rfl⟩, ?_, _, ⟨?_, ?_, hctotal⟩, rfl⟩
      · unfold Inside
        omega
      · omega
      · omega
  · rintro ⟨n, hn, row, col, hrow, hcol, hin, c, ⟨hle, hlt, hctotal⟩, rfl⟩
    obtain ⟨i, hi, rfl⟩ := (exists_window_iff h.strideH_pos).mpr hrow
    obtain ⟨j, hj, rfl⟩ := (exists_window_iff h.strideW_pos).mpr hcol
    refine ⟨n, hn, i, ⟨i, hi, rfl⟩, j, ⟨j, hj, rfl⟩, c - tile.C * mapping.tileInLoop.C,
      ⟨by omega, ?_⟩, ?_⟩
    · show tile.C * mapping.tileInLoop.C + (c - tile.C * mapping.tileInLoop.C) < op.key.C
      omega
    · unfold Inside at hin
      rw [if_neg (by omega), show tile.C * mapping.tileInLoop.C +
        (c - tile.C * mapping.tileInLoop.C) = c by omega]
      rfl

/-! ## All tiles -/

variable (hcuts : Cuts op.key mapping) {tiles : List Tile}
  (htiles : op.initializeTiles mapping = some tiles)
include hcuts htiles

theorem made_of_mem (htile : tile ∈ tiles) : op.Made mapping tile tile.instructions := by
  obtain ⟨loop, hloop, hof⟩ :=
    Loops.exists_of_forall₂_right (tileOf_of_initializeTiles hcuts htiles) htile
  exact hof.made hcuts hloop

theorem loadsUsed_of_windowsHold (h : op.WindowsHold mapping) : op.LoadsUsed mapping tiles := by
  intro tile htile n q p s r c hn hq hp hs hr hc hin
  obtain ⟨hrow, hcol⟩ := h q hq.2.2 p hp.2.2 s hs.2.2 r hr.2.2 hin
  rw [hq.tile_eq] at hrow
  rw [hp.tile_eq] at hcol
  obtain ⟨hle, hlt, -⟩ := hn
  refine ((made_of_mem hcuts htiles htile).touched_activation_iff hcuts.total).mpr
    ⟨n - tile.batch * mapping.tileInLoop.N, by omega, _, _, hrow, hcol, hin, c, hc, ?_⟩
  rw [Nat.add_sub_cancel' hle]

omit hcuts htiles

/-- The pixels of the input have accesses of their own, and those that a tile may load are in 32 bits. -/
structure InputApart (op : ConvWS) (mapping : Mapping) : Prop where
  apart : op.PixelsApart op.inputShape
  channels : op.inputShape.getD op.cdim 0 = op.key.C
  fits : mapping.tileInLoop.N * op.inputShape.getD op.hdim 0 * op.inputShape.getD op.wdim 0 *
    op.key.C * op.config.precision ≤ 2 ^ 32

theorem InputApart.index_lt (h : op.InputApart mapping) {n c : Nat} {row col : Int}
    (hn : n < mapping.tileInLoop.N) (hin : op.Inside row col) (hc : c < op.key.C) :
    (op.place op.inputShape n row.toNat col.toNat * op.key.C + c) * op.config.precision < 2 ^ 32 := by
  obtain ⟨⟨hrow, hrowlt⟩, hcol, hcollt⟩ := hin
  refine Nat.lt_of_lt_of_le (Nat.mul_lt_mul_of_pos_right ?_ h.apart.divides.precision_pos) h.fits
  have hplace : op.place op.inputShape n row.toNat col.toNat < _ :=
    Grid.place_lt hn (by omega) (by omega)
  have hall := Nat.mul_le_mul_right op.key.C hplace
  rw [Nat.succ_mul] at hall
  omega

/-- Two elements of the input that have one chunk are of one pixel. -/
theorem InputApart.pixel_eq (h : op.InputApart mapping) {n c n' c' : Nat} {row col row' col' : Int}
    (hn : n < mapping.tileInLoop.N) (hin : op.Inside row col) (hc : c < op.key.C)
    (hn' : n' < mapping.tileInLoop.N) (hin' : op.Inside row' col') (hc' : c' < op.key.C)
    (heq : op.inputChunk n row.toNat col.toNat c = op.inputChunk n' row'.toNat col'.toNat c') :
    row = row' ∧ col = col' := by
  have hplace : op.place op.inputShape n row.toNat col.toNat =
      op.place op.inputShape n' row'.toNat col'.toNat := by
    refine h.apart.place_eq (h.channels ▸ hc) (h.channels ▸ hc') ?_ ?_ heq
    · rw [h.channels]
      exact h.index_lt hn hin hc
    · rw [h.channels]
      exact h.index_lt hn' hin' hc'
  obtain ⟨⟨hrow, hrowlt⟩, hcol, hcollt⟩ := hin
  obtain ⟨⟨hrow', hrowlt'⟩, hcol', hcollt'⟩ := hin'
  obtain ⟨-, hroweq, hcoleq⟩ := Grid.place_inj (by omega) (by omega) (by omega) (by omega) hplace
  omega

/-- Where pixels have accesses of their own, the tiles load what their outputs need only if the windows
hold it. -/
theorem windowsHold_of_loadsUsed (hcuts : Cuts op.key mapping) {tiles : List Tile}
    (htiles : op.initializeTiles mapping = some tiles) (hapart : op.InputApart mapping)
    (h : op.LoadsUsed mapping tiles) : op.WindowsHold mapping := by
  intro q hq p hp s hs r hr hin
  obtain ⟨houtN, houtC, houtM, -⟩ := turns_of_initializeTiles htiles
  have hN := hcuts.N.inner_pos
  have hC := hcuts.C.inner_pos
  have hCpos := hcuts.C.total_pos houtC
  have hloop : ((0, p / mapping.tileInLoop.P, q / mapping.tileInLoop.Q, 0),
      s / mapping.tileInLoop.S, r / mapping.tileInLoop.R, 0) ∈ tileLoops mapping :=
    mem_tileLoops.mpr ⟨⟨houtN, (hcuts.P.locate hp).1, (hcuts.Q.locate hq).1, houtM⟩,
      (hcuts.S.locate hs).1, (hcuts.R.locate hr).1, houtC⟩
  obtain ⟨tile, htile, hof⟩ :=
    Loops.exists_of_forall₂ (tileOf_of_initializeTiles hcuts htiles) hloop
  have htouched := h tile htile 0 q p s r 0
    (by rw [hof.batch_eq]; exact inTile_zero hN (hcuts.N.total_pos houtN))
    (by rw [hof.Q_eq]; exact inTile_div hcuts.Q.inner_pos hq)
    (by rw [hof.P_eq]; exact inTile_div hcuts.P.inner_pos hp)
    (by rw [hof.S_eq]; exact inTile_div hcuts.S.inner_pos hs)
    (by rw [hof.R_eq]; exact inTile_div hcuts.R.inner_pos hr)
    (by rw [hof.C_eq]; exact inTile_zero hC hCpos) hin
  obtain ⟨n, hn, row, col, hrow, hcol, hin', c, hc, heq⟩ :=
    ((hof.made hcuts hloop).touched_activation_iff hcuts.total).mp htouched
  rw [hof.batch_eq, Nat.zero_mul, Nat.zero_add] at heq
  obtain ⟨hroweq, hcoleq⟩ := hapart.pixel_eq hN hin hCpos hn hin' hc.2.2 heq
  rw [hof.Q_eq, ← hroweq] at hrow
  rw [hof.P_eq, ← hcoleq] at hcol
  exact ⟨hrow, hcol⟩

/-! ## A stride of 1 -/

/-- With a stride of 1 and half of the kernel on each side as padding, a window holds what is needed. -/
theorem windowHolds_of_samePadding {axis len t q s : Nat} (hstride : op.strides.getD axis 0 = 1)
    (hpad : op.pads.getD axis 0 = op.dilations.getD axis 0 * (op.kernelShape.getD axis 0 - 1) / 2)
    (hq : t * len ≤ q ∧ q < t * len + len) (hs : s < op.kernelShape.getD axis 0) :
    op.WindowHolds axis (t * len) len (op.inputCoord axis q s) := by
  unfold WindowHolds inputCoord inputOffset inputSize
  rw [hstride, hpad]
  have hreach : s * op.dilations.getD axis 0 ≤
      op.dilations.getD axis 0 * (op.kernelShape.getD axis 0 - 1) := by
    rw [Nat.mul_comm]
    exact Nat.mul_le_mul_left _ (by omega)
  have hcast : (op.dilations.getD axis 0 : Int) * ((op.kernelShape.getD axis 0 : Int) - 1) =
      (op.dilations.getD axis 0 * (op.kernelShape.getD axis 0 - 1) : Nat) := by
    rw [Int.natCast_mul, Int.natCast_sub (by omega)]
    rfl
  rw [hcast, ← Int.natCast_mul s]
  generalize s * op.dilations.getD axis 0 = reach at hreach ⊢
  generalize op.dilations.getD axis 0 * (op.kernelShape.getD axis 0 - 1) = size at hreach ⊢
  generalize t * len = offset at hq ⊢
  refine ⟨by omega, by omega, ?_⟩
  exact Int.one_dvd _

theorem windowsHold_of_samePadding (hcuts : Cuts op.key mapping)
    (hstrides : ∀ axis < 2, op.strides.getD axis 0 = 1)
    (hpads : ∀ axis < 2, op.pads.getD axis 0 =
      op.dilations.getD axis 0 * (op.kernelShape.getD axis 0 - 1) / 2)
    (hrows : op.kernelShape.getD 0 0 = op.key.S) (hcols : op.kernelShape.getD 1 0 = op.key.R) :
    op.WindowsHold mapping := by
  intro q hq p hp s hs r hr _
  obtain ⟨hle, hlt, -⟩ := inTile_div hcuts.Q.inner_pos hq
  obtain ⟨hle', hlt', -⟩ := inTile_div hcuts.P.inner_pos hp
  exact ⟨windowHolds_of_samePadding (hstrides 0 (by decide)) (hpads 0 (by decide)) ⟨hle, hlt⟩
      (hrows ▸ hs),
    windowHolds_of_samePadding (hstrides 1 (by decide)) (hpads 1 (by decide)) ⟨hle', hlt'⟩
      (hcols ▸ hr)⟩

/-- A core of 16 x 16 elements with 16 KiB for the inputs and the weights. -/
def strideNode : Node where
  config := {
    numCores := 1
    coreConfig := fun _ => { coreWidth := 16, coreHeight := 16, spadSize := 16, accumSpadSize := 4 }
    dramChannels := 1
    dramReqSize := 32
    precision := 2 }
  id := 1
  inputs := [0, 4096]
  outputs := [8192]

/-- A kernel of 3 x 3 over 16 channels of 4 x 4 numbers, with a padding of 1. -/
def stridedConv (stride : Nat) : ConvWS :=
  { strideNode with
    kernelShape := [3, 3]
    strides := [stride, stride]
    dilations := [1, 1]
    pads := [1, 1, 1, 1]
    inputShape := [1, 4, 4, 16]
    weightShape := [1, 16, 3, 3]
    convOutShape := [1, 4 / stride, 4 / stride, 1] }

/-- The mapping that `calc_conv_mapping` finds for `stridedConv`: one tile. -/
def stridedMapping (stride : Nat) : Mapping where
  totalLoop := { N := 1, C := 16, M := 1, S := 3, R := 3, Q := 4 / stride, P := 4 / stride }
  tileInLoop := { N := 1, C := 16, M := 1, S := 3, R := 3, Q := 4 / stride, P := 4 / stride }
  tileOutLoop := { N := 1, C := 1, M := 1, S := 1, R := 1, Q := 1, P := 1 }

end ConvWS

end OnnxSim
