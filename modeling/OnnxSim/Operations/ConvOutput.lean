import OnnxSim.Operations.ConvStores

/-!
# The output of a convolution

The stores of a convolution write its output, and nothing else, if they reach all of its rows, columns and
channels, as they do without a pooling where the batches fill the tiles (`ConvWS.reaches_of_one`). With a
pooling the numbers of the pooled output are looked for at the places of whole windows, and most of them
are not reached.
-/

namespace OnnxSim

namespace ConvWS

variable (op : ConvWS) (mapping : Mapping)

/-- The stores of the tiles write the chunks of the output, and no others. -/
def StoresWhole (tiles : List Tile) : Prop :=
  ∀ a, Written tiles a ↔ ∃ n < op.outputShape.getD 0 0, ∃ h < op.outputShape.getD op.hdim 0,
    ∃ w < op.outputShape.getD op.wdim 0, ∃ m < op.outputShape.getD op.cdim 0,
      a = op.outputChunk n h w m

/-- What the constructors of `Conv` set. -/
structure Shapes : Prop where
  batches : op.outputShape.getD 0 0 = op.key.N
  channels : op.outputShape.getD op.cdim 0 = op.key.M

/-- The stores reach the rows and the columns of the output, no others, and a channel in each chunk. -/
structure Reaches : Prop where
  batches : mapping.tileInLoop.N ∣ op.key.N
  rows : ∀ h, op.Row mapping h ↔ h < op.outputShape.getD op.hdim 0
  columns : ∀ w, op.Column mapping w ↔ w < op.outputShape.getD op.wdim 0
  channels : ∀ n < op.key.N, ∀ h, op.Row mapping h → ∀ w, op.Column mapping w → ∀ m < op.key.M,
    ∃ m', op.Channel mapping m' ∧ op.outputChunk n h w m = op.outputChunk n h w m'

variable {op mapping} (hcuts : Cuts op.key mapping) {tiles : List Tile}
  (htiles : op.initializeTiles mapping = some tiles)
include hcuts htiles

/-- The stores write the output where they reach all of it. -/
theorem storesWhole_of_reaches (hshapes : op.Shapes) (h : op.Reaches mapping) :
    op.StoresWhole tiles := by
  intro a
  rw [written_iff hcuts htiles, hshapes.batches, hshapes.channels, hcuts.N.mul_eq_iff.mpr h.batches]
  constructor
  · rintro ⟨n, hn, y, hy, w, hw, m, ⟨t, -, hm⟩, rfl⟩
    exact ⟨n, hn, y, (h.rows y).mp hy, w, (h.columns w).mp hw, m, hm.1, rfl⟩
  · rintro ⟨n, hn, y, hy, w, hw, m, hm, rfl⟩
    obtain ⟨m', hm', heq⟩ := h.channels n hn y ((h.rows y).mpr hy) w ((h.columns w).mpr hw) m hm
    exact ⟨n, hn, y, (h.rows y).mpr hy, w, (h.columns w).mpr hw, m', hm', heq⟩

omit htiles in
theorem row_iff_of_one (hone : op.windowH = 1) (y : Nat) : op.Row mapping y ↔ y < op.key.Q := by
  unfold Row RowOf
  rw [hone]
  constructor
  · rintro ⟨t, -, -, -, hend⟩
    omega
  · intro hy
    have hin := hcuts.Q.inner_pos
    have hdiv := Nat.div_add_mod' y mapping.tileInLoop.Q
    have hmod := Nat.mod_lt y hin
    exact ⟨y / mapping.tileInLoop.Q, (hcuts.Q.locate hy).1, by omega, Nat.one_dvd _, by omega⟩

omit htiles in
theorem not_row_one (hpos : 0 < op.windowH) (hone : op.windowH ≠ 1) : ¬ op.Row mapping 1 := by
  rintro ⟨t, -, hle, hdvd, hend⟩
  have hin := hcuts.Q.inner_pos
  rcases Nat.eq_zero_or_pos t with rfl | ht
  · rw [Nat.zero_mul, Nat.sub_zero] at hdvd
    exact hone (Nat.dvd_one.mp hdvd)
  · have hmul := Nat.le_mul_of_pos_left mapping.tileInLoop.Q ht
    omega

omit hcuts in
theorem not_column_one (hpos : 0 < op.windowH) (hone : op.windowH ≠ 1) : ¬ op.Column mapping 1 := by
  rintro ⟨t, -, -, -, -, hfirst⟩
  obtain ⟨⟨-, hfits⟩, -⟩ := of_initializeTiles htiles
  have hpool : op.poolFused = true := by
    by_contra hpool
    exact hone (by simp [windowH, hpool])
  have hle : op.windowH ≤ mapping.tileInLoop.P := by
    unfold poolFits at hfits
    simp only [hpool, Bool.not_true, Bool.false_or, Bool.and_eq_true, decide_eq_true_eq] at hfits
    simpa [windowH, hpool] using hfits.1.1
  have heq := Nat.eq_one_of_mul_eq_one_left (hfirst.resolve_left hone).symm
  omega

theorem windows_pos : 0 < op.windowH ∧ 0 < op.windowW := by
  obtain ⟨-, hne, -⟩ := of_initializeTiles htiles
  obtain ⟨tile, htile⟩ := List.exists_mem_of_ne_nil tiles hne
  obtain ⟨loop, hloop, hof⟩ :=
    Loops.exists_of_forall₂_right (tileOf_of_initializeTiles hcuts htiles) htile
  have hmade := hof.made hcuts hloop
  cases hpool : op.poolFused with
  | false => simp [windowH, windowW, hpool]
  | true =>
    rw [windowH_of_pooled hpool, windowW_of_pooled hpool]
    exact ⟨hmade.qLoopSize_pos, hmade.pLoopSize_pos⟩

omit hcuts htiles

/-- The pixels of the output have accesses of their own, also those past its end that the stores may
write, and it has not more rows than the convolution. -/
structure OutputApart (op : ConvWS) (mapping : Mapping) : Prop where
  apart : op.PixelsApart op.outputShape
  height_pos : 0 < op.outputShape.getD op.hdim 0
  width_pos : 0 < op.outputShape.getD op.wdim 0
  height_le : op.outputShape.getD op.hdim 0 ≤ op.key.Q
  fits : ((mapping.tileOutLoop.N * mapping.tileInLoop.N * op.outputShape.getD op.hdim 0 + op.key.Q) *
    op.outputShape.getD op.wdim 0 + op.key.P) * op.key.M * op.config.precision ≤ 2 ^ 32

theorem OutputApart.index_lt (h : op.OutputApart mapping) {n y w m : Nat}
    (hn : n < mapping.tileOutLoop.N * mapping.tileInLoop.N) (hy : y < op.key.Q)
    (hw : w < op.outputShape.getD op.wdim 0 + op.key.P) (hm : m < op.key.M) :
    (op.place op.outputShape n y w * op.key.M + m) * op.config.precision < 2 ^ 32 := by
  refine Nat.lt_of_lt_of_le (Nat.mul_lt_mul_of_pos_right ?_ h.apart.divides.precision_pos) h.fits
  unfold place Grid.place
  generalize op.outputShape.getD op.hdim 0 = H
  generalize op.outputShape.getD op.wdim 0 = W at hw ⊢
  have hrows : (n + 1) * H ≤ mapping.tileOutLoop.N * mapping.tileInLoop.N * H :=
    Nat.mul_le_mul_right H hn
  rw [Nat.succ_mul] at hrows
  have hcols : (n * H + y + 1) * W ≤
      (mapping.tileOutLoop.N * mapping.tileInLoop.N * H + op.key.Q) * W :=
    Nat.mul_le_mul_right W (by omega)
  rw [Nat.succ_mul] at hcols
  have hall : ((n * H + y) * W + w + 1) * op.key.M ≤
      ((mapping.tileOutLoop.N * mapping.tileInLoop.N * H + op.key.Q) * W + op.key.P) * op.key.M :=
    Nat.mul_le_mul_right op.key.M (by omega)
  rw [Nat.succ_mul] at hall
  omega

/-- Two elements that the stores may write have one chunk only if they are of one pixel. -/
theorem OutputApart.place_eq (h : op.OutputApart mapping) (hshapes : op.Shapes)
    {n y w m n' y' w' m' : Nat} (hn : n < mapping.tileOutLoop.N * mapping.tileInLoop.N)
    (hy : y < op.key.Q) (hw : w < op.outputShape.getD op.wdim 0 + op.key.P) (hm : m < op.key.M)
    (hn' : n' < mapping.tileOutLoop.N * mapping.tileInLoop.N) (hy' : y' < op.key.Q)
    (hw' : w' < op.outputShape.getD op.wdim 0 + op.key.P) (hm' : m' < op.key.M)
    (heq : op.outputChunk n y w m = op.outputChunk n' y' w' m') :
    op.place op.outputShape n y w = op.place op.outputShape n' y' w' := by
  refine h.apart.place_eq (hshapes.channels ▸ hm) (hshapes.channels ▸ hm') ?_ ?_ heq
  · rw [hshapes.channels]
    exact h.index_lt hn hy hw hm
  · rw [hshapes.channels]
    exact h.index_lt hn' hy' hw' hm'

theorem lt_of_row {y : Nat} (hpos : 0 < op.windowH) (h : op.Row mapping y) : y < op.key.Q := by
  obtain ⟨t, -, -, -, hend⟩ := h
  omega

theorem lt_of_column {w : Nat} (hpos : 0 < op.windowW) (h : op.Column mapping w) :
    w < op.key.P := by
  obtain ⟨t, -, -, -, hend, -⟩ := h
  omega

/-- The places that the stores write are those of the whole output. -/
theorem fills_of_storesWhole (hcuts : Cuts op.key mapping) {tiles : List Tile}
    (htiles : op.initializeTiles mapping = some tiles) (hshapes : op.Shapes)
    (hapart : op.OutputApart mapping) (h : op.StoresWhole tiles) :
    Grid.Fills op.key.N (mapping.tileOutLoop.N * mapping.tileInLoop.N)
      (op.outputShape.getD op.hdim 0) (op.outputShape.getD op.wdim 0) (op.Row mapping)
        (op.Column mapping) := by
  obtain ⟨hH, hW⟩ := windows_pos hcuts htiles
  obtain ⟨houtN, -, houtM, -⟩ := turns_of_initializeTiles htiles
  have hN := hcuts.N.total_pos houtN
  have hM := hcuts.M.total_pos houtM
  have hle := hcuts.N.end_le
  have hheight := hapart.height_le
  have hwrites : ∀ n < op.key.N, ∀ y < op.outputShape.getD op.hdim 0,
      ∀ w < op.outputShape.getD op.wdim 0, ∀ m < op.key.M,
        ∃ n' < mapping.tileOutLoop.N * mapping.tileInLoop.N, ∃ y', op.Row mapping y' ∧
          ∃ w', op.Column mapping w' ∧ ∃ m', op.Channel mapping m' ∧
            op.outputChunk n y w m = op.outputChunk n' y' w' m' := by
    intro n hn y hy w hw m hm
    rw [← hshapes.batches] at hn
    rw [← hshapes.channels] at hm
    exact (written_iff hcuts htiles).mp ((h _).mpr ⟨n, hn, y, hy, w, hw, m, hm, rfl⟩)
  obtain ⟨-, -, -, -, -, -, m, hm, -⟩ := hwrites 0 hN 0 hapart.height_pos 0 hapart.width_pos 0 hM
  obtain ⟨-, -, hmlt, -⟩ := id hm
  constructor
  · intro n hn y hy w hw
    obtain ⟨n', hn', y', hy', w', hw', m', hm', heq⟩ :=
      (h _).mp ((written_iff hcuts htiles).mpr ⟨n, hn, y, hy, w, hw, m, hm, rfl⟩)
    rw [hshapes.batches] at hn'
    rw [hshapes.channels] at hm'
    have hplace := hapart.place_eq hshapes hn (lt_of_row hH hy)
      (Nat.lt_add_left _ (lt_of_column hW hw)) hmlt (by omega) (by omega)
      (Nat.lt_add_right _ hw') hm' heq
    show op.place op.outputShape n y w < _
    rw [hplace]
    exact Grid.place_lt hn' hy' hw'
  · intro x hx
    obtain ⟨n, hn, y, hy, w, hw, rfl⟩ := Grid.exists_place hx
    obtain ⟨n', hn', y', hy', w', hw', m', ⟨t, -, hm', -⟩, heq⟩ := hwrites n hn y hy w hw 0 hM
    exact ⟨n', hn', y', hy', w', hw', (hapart.place_eq hshapes (by omega) (by omega)
      (Nat.lt_add_right _ hw) hM hn' (lt_of_row hH hy') (Nat.lt_add_left _ (lt_of_column hW hw')) hm'
      heq).symm⟩

/-- Where pixels have accesses of their own, the stores write the output only if they reach all of it. -/
theorem reaches_of_storesWhole (hcuts : Cuts op.key mapping) {tiles : List Tile}
    (htiles : op.initializeTiles mapping = some tiles) (hshapes : op.Shapes)
    (hapart : op.OutputApart mapping) (h : op.StoresWhole tiles) : op.Reaches mapping := by
  obtain ⟨hH, hW⟩ := windows_pos hcuts htiles
  obtain ⟨houtN, -⟩ := turns_of_initializeTiles htiles
  have hfills := fills_of_storesWhole hcuts htiles hshapes hapart h
  have hwhole : Grid.Whole op.key.N (mapping.tileOutLoop.N * mapping.tileInLoop.N)
      (op.outputShape.getD op.hdim 0) (op.outputShape.getD op.wdim 0) (op.Row mapping)
        (op.Column mapping) := by
    have hN := hcuts.N.total_pos houtN
    by_cases hone : op.windowH = 1
    · exact hfills.whole_of_rows hN hapart.height_pos hapart.width_pos hcuts.N.end_le hapart.height_le
        (row_iff_of_one hcuts hone)
    · exact hfills.whole_of_not_one hN hapart.height_pos hapart.width_pos hcuts.N.end_le
        (not_row_one hcuts hH hone) (not_column_one htiles hH hone)
  refine ⟨hcuts.N.mul_eq_iff.mp hwhole.pictures, hwhole.rows, hwhole.columns, ?_⟩
  intro n hn y hy w hw m hm
  have hyH := (hwhole.rows y).mp hy
  have hwW := (hwhole.columns w).mp hw
  have hwritten := (h (op.outputChunk n y w m)).mpr
    ⟨n, hshapes.batches ▸ hn, y, hyH, w, hwW, m, hshapes.channels ▸ hm, rfl⟩
  obtain ⟨n', hn', y', hy', w', hw', m', hm', heq⟩ := (written_iff hcuts htiles).mp hwritten
  obtain ⟨-, -, hmlt, -⟩ := id hm'
  have hle := hcuts.N.end_le
  have hplace : op.place op.outputShape n y w = op.place op.outputShape n' y' w' :=
    hapart.place_eq hshapes (by omega) (lt_of_row hH hy) (Nat.lt_add_left _ (lt_of_column hW hw)) hm
      hn' (lt_of_row hH hy') (Nat.lt_add_left _ (lt_of_column hW hw')) hmlt heq
  obtain ⟨rfl, rfl, rfl⟩ := Grid.place_inj hyH ((hwhole.rows y').mp hy') hwW
    ((hwhole.columns w').mp hw') hplace
  exact ⟨m', hm', heq⟩

/-! ## Where the stores reach all of the output -/

/-- A store without a pooling, or with one of a single number, writes its whole block. -/
theorem reaches_of_one (hcuts : Cuts op.key mapping) (hloop : 0 < op.loopSize)
    (hH : op.windowH = 1) (hW : op.windowW = 1) (hbatches : mapping.tileInLoop.N ∣ op.key.N)
    (hrows : op.outputShape.getD op.hdim 0 = op.key.Q)
    (hcolumns : op.outputShape.getD op.wdim 0 = op.key.P) : op.Reaches mapping := by
  refine ⟨hbatches, fun y => hrows ▸ row_iff_of_one hcuts hH y, fun w => ?_, ?_⟩
  · rw [hcolumns]
    unfold Column ColumnOf
    rw [hH, hW]
    constructor
    · rintro ⟨t, -, -, -, hend, -⟩
      omega
    · intro hw
      have hdiv := Nat.div_add_mod' w mapping.tileInLoop.P
      have hmod := Nat.mod_lt w hcuts.P.inner_pos
      exact ⟨w / mapping.tileInLoop.P, (hcuts.P.locate hw).1, by omega, Nat.one_dvd _, by omega,
        .inl rfl⟩
  · intro n _ y _ w _ m hm
    have hdiv := Nat.div_add_mod' m mapping.tileInLoop.M
    have hmod := Nat.mod_lt m hcuts.M.inner_pos
    have hblock := Nat.div_add_mod' (m % mapping.tileInLoop.M) op.loopSize
    have hplace := Nat.mod_lt (m % mapping.tileInLoop.M) hloop
    exact ⟨m, ⟨m / mapping.tileInLoop.M, (hcuts.M.locate hm).1, hm,
      m % mapping.tileInLoop.M / op.loopSize, by omega, .inl ⟨hH, hW⟩, by omega, by omega⟩, rfl⟩

/-- With windows of several rows the stores reach all of the output only if it is one pixel. -/
theorem Reaches.le_one (h : op.Reaches mapping) (hcuts : Cuts op.key mapping) {tiles : List Tile}
    (htiles : op.initializeTiles mapping = some tiles) (hone : op.windowH ≠ 1) :
    op.outputShape.getD op.hdim 0 ≤ 1 ∧ op.outputShape.getD op.wdim 0 ≤ 1 := by
  obtain ⟨hH, -⟩ := windows_pos hcuts htiles
  have hrow := mt (h.rows 1).mpr (not_row_one hcuts hH hone)
  have hcolumn := mt (h.columns 1).mpr (not_column_one htiles hH hone)
  omega

/-- The stores of a convolution write the output if they reach all of it, and where pixels have accesses
of their own only then. -/
theorem storesWhole_iff (op : ConvWS) (mapping : Mapping) (tiles : List Tile)
    (hcuts : Cuts op.key mapping) (hshapes : op.Shapes)
    (htiles : op.initializeTiles mapping = some tiles) :
    (op.Reaches mapping → op.StoresWhole tiles) ∧
      (op.OutputApart mapping → op.StoresWhole tiles → op.Reaches mapping) :=
  ⟨storesWhole_of_reaches hcuts htiles hshapes, reaches_of_storesWhole hcuts htiles hshapes⟩

/-- A core of 16 x 16 elements with 4 KiB for the inputs and the weights. -/
def poolNode : Node where
  config := {
    numCores := 1
    coreConfig := fun _ => { coreWidth := 16, coreHeight := 16, spadSize := 4, accumSpadSize := 4 }
    dramChannels := 1
    dramReqSize := 32
    precision := 2 }
  id := 1
  inputs := [0, 256]
  outputs := [768]

/-- 16 channels of 4 x 4 numbers, pooled in windows of `k` x `k`. -/
def pooledConv (k : Nat) : ConvWS :=
  { poolNode with
    kernelShape := [1, 1]
    strides := [1, 1]
    dilations := [1, 1]
    pads := [0, 0, 0, 0]
    inputShape := [1, 4, 4, 2]
    weightShape := [16, 2, 1, 1]
    convOutShape := [1, 4, 4, 16]
    poolFused := true
    poolKernelShape := [k, k]
    poolOutShape := [1, 4 / k, 4 / k, 16] }

/-- The mapping that `calc_conv_mapping` finds for `pooledConv`: one tile. -/
def pooledMapping : Mapping where
  totalLoop := { N := 1, C := 2, M := 16, S := 1, R := 1, Q := 4, P := 4 }
  tileInLoop := { N := 1, C := 2, M := 16, S := 1, R := 1, Q := 4, P := 4 }
  tileOutLoop := { N := 1, C := 1, M := 1, S := 1, R := 1, Q := 1, P := 1 }

/-- A pooling of all numbers to one leaves one store. -/
theorem reaches_wholeWindow : (pooledConv 4).Reaches pooledMapping := by
  have hone : ∀ {x}, (∃ t < 1, t * 4 ≤ x ∧ 4 ∣ x - t * 4 ∧ x + 4 ≤ min (t * 4 + 4) 4) ↔ x < 1 := by
    intro x
    constructor
    · rintro ⟨t, -, -, -, hend⟩
      omega
    · intro hx
      exact ⟨0, by decide, by omega, by omega, by omega⟩
  refine ⟨by decide, fun h => hone, fun w => ?_, ?_⟩
  · refine Iff.trans ⟨?_, ?_⟩ hone
    · rintro ⟨t, ht, hle, hdvd, hend, -⟩
      exact ⟨t, ht, hle, hdvd, hend⟩
    · rintro ⟨t, ht, hle, hdvd, hend⟩
      exact ⟨t, ht, hle, hdvd, hend, .inr (by show w = t * 4; omega)⟩
  · intro n _ h _ w _ m hm
    exact ⟨m, ⟨0, by decide, hm, 0, by decide, .inr rfl, by omega, by
      show m < 0 * 16 + 0 * 16 + 16
      have : m < 16 := hm
      omega⟩, rfl⟩

theorem storesWhole_iff_wholeWindow :
    calcConvMapping poolNode.config 20 (pooledConv 4).key = some pooledMapping ∧
      ∃ tiles, (pooledConv 4).initializeTiles pooledMapping = some tiles ∧
        (pooledConv 4).StoresWhole tiles := by
  have hmapping : calcConvMapping poolNode.config 20 (pooledConv 4).key = some pooledMapping := by
    decide +kernel
  have hcuts : Cuts (pooledConv 4).key pooledMapping :=
    (calcConvMapping_cuts (by decide) (by decide) hmapping (by unfold Mapping.Turns; decide)).1
  obtain ⟨tiles, htiles⟩ := Option.isSome_iff_exists.mp
    (show ((pooledConv 4).initializeTiles pooledMapping).isSome = true by decide +kernel)
  exact ⟨hmapping, tiles, htiles, (storesWhole_iff (pooledConv 4) pooledMapping tiles hcuts ⟨rfl, rfl⟩
    htiles).1 reaches_wholeWindow⟩

/-- Of four windows the stores write the first one and, past the end of the output, the third one. -/
theorem fourWindows_not_whole :
    calcConvMapping poolNode.config 20 (pooledConv 2).key = some pooledMapping ∧
      ∃ tiles, (pooledConv 2).initializeTiles pooledMapping = some tiles ∧
        ¬ (pooledConv 2).StoresWhole tiles := by
  refine ⟨by decide +kernel, ?_⟩
  obtain ⟨tiles, htiles, hstores⟩ := Option.map_eq_some_iff.mp
    (show ((pooledConv 2).initializeTiles pooledMapping).map (fun tiles => tiles.all fun tile =>
      tile.instructions.all fun i => !decide (800 ∈ i.srcAddrs ∧
        (i.opcode = .MOVOUT ∨ i.opcode = .MOVOUT_POOL))) = some true by decide +kernel)
  refine ⟨tiles, htiles, fun hwhole => ?_⟩
  obtain ⟨tile, htile, i, hi, hopcode, ha⟩ := (hwhole 800).mpr
    ⟨0, by decide, 0, by decide, 1, by decide, 0, by decide, by decide⟩
  have hnone := List.all_eq_true.mp (List.all_eq_true.mp hstores tile htile) i hi
  rw [decide_eq_true ⟨ha, hopcode⟩] at hnone
  cases hnone

end ConvWS

end OnnxSim
