import OnnxSim.Operations.AttentionTiles

/-!
# The keys and values that an attention reads

A tile is to read its piece of the keys and values of its key head. `initialize_instructions` divides
the first query head of the tile by the number of key heads, where that of query heads for a key head
is meant, and reads every piece from the start of the keys. So the tile reads the right chunks exactly
when the run of elements that it reads starts and ends in the chunks where its own piece starts and
ends (`Attention.reads_right_iff`).
-/

namespace OnnxSim

namespace Attention

variable (op : Attention) (mapping : Mapping)

/-- The chunk of an element of the keys, or of the values. -/
def kvChunk (operandId head s i : Nat) : AddrType :=
  op.getOperandAddr operandId + op.chunk ((head * op.seq + s) * op.dk + i)

/-- The tile reads exactly the chunks of its key head in its piece. -/
def ReadsPiece (t : Tile) (operandId : Nat) : Prop :=
  ∀ a, Touched t.instructions .MOVIN operandId a ↔
    ∃ s, t.M * blockSeqLen mapping ≤ s ∧ s < min ((t.M + 1) * blockSeqLen mapping) op.seq ∧
      ∃ i < op.dk, a = op.kvChunk operandId (op.group mapping t.batch) s i

/-- The tiles read the pieces of their key heads, and those of a block of queries read all of the keys
and values. -/
structure ReadsRight (tiles : List Tile) : Prop where
  keys : ∀ t ∈ tiles, op.ReadsPiece mapping t (INPUT_OPERAND + 1)
  values : ∀ t ∈ tiles, op.ReadsPiece mapping t (INPUT_OPERAND + 2)
  covered : ∀ j < op.qlenOffset mapping, ∀ head < op.nkvh, ∀ s < op.seq, ∀ i < op.dk,
    ∃ t ∈ tiles, t.batch % op.qlenOffset mapping = j ∧
      Touched t.instructions .MOVIN (INPUT_OPERAND + 1)
        (op.kvChunk (INPUT_OPERAND + 1) head s i) ∧
      Touched t.instructions .MOVIN (INPUT_OPERAND + 2) (op.kvChunk (INPUT_OPERAND + 2) head s i)

/-- The keys in piece `m`. -/
def pieceLen (m : Nat) : Nat := min (blockSeqLen mapping) (op.seq - m * blockSeqLen mapping)

/-- The run of elements from the start of head `kv_head_idx` starts and ends in the chunks in which the
piece does. -/
def SamePiece (n m : Nat) : Prop :=
  let e := op.config.dramReqSize / op.config.precision
  let read := op.kvHeadIdx (op.headOff mapping n) * (op.seq * op.dk)
  let due := (op.group mapping n * op.seq + m * blockSeqLen mapping) * op.dk
  let len := op.pieceLen mapping m * op.dk
  read / e = due / e ∧ (read + (len - 1)) / e = (due + (len - 1)) / e

variable {op mapping} {qLen : Nat}

namespace InLoops

variable {n m : Nat} (h : InLoops op mapping qLen n m)
include h

theorem pieceLen_pos : 0 < op.pieceLen mapping m := by
  have hkey := h.key_lt
  have hseq := h.seqLen_pos
  unfold pieceLen
  omega

theorem piece_le : m * blockSeqLen mapping + op.pieceLen mapping m ≤ op.seq := by
  have hkey := h.key_lt
  unfold pieceLen
  omega

end InLoops

/-- Elements of the keys have words for indices. -/
theorem Sizes.run_le (hsizes : op.Sizes) {head : Nat} (s len : Nat) (hhead : head < op.nkvh)
    (hs : s + len ≤ op.seq) : (head * op.seq + s) * op.dk + len * op.dk ≤ 2 ^ 32 := by
  have hrow : head * op.seq + (s + len) ≤ op.nkvh * op.seq := by
    have hmul : (head + 1) * op.seq ≤ op.nkvh * op.seq := Nat.mul_le_mul_right _ hhead
    rw [Nat.succ_mul] at hmul
    omega
  calc (head * op.seq + s) * op.dk + len * op.dk
      = (head * op.seq + (s + len)) * op.dk := by rw [← Nat.add_mul, Nat.add_assoc]
    _ ≤ op.nkvh * op.seq * op.dk := Nat.mul_le_mul_right _ hrow
    _ ≤ 2 ^ 32 := hsizes.keys_lt.le

namespace Cut

variable (h : op.Cut mapping qLen) (hsizes : op.Sizes) (hmap : op.calculateLoops = some mapping)
  {tiles : List Tile} (htiles : op.initializeTiles op.initializeInstructions = some tiles)
include h hsizes hmap htiles

/-- What a tile reads is a run of elements. -/
theorem touched_run {t : Tile} (ht : t ∈ tiles) {operandId : Nat}
    (hoperand : operandId = INPUT_OPERAND + 1 ∨ operandId = INPUT_OPERAND + 2) {a : AddrType} :
    Touched t.instructions .MOVIN operandId a ↔ ∃ j < op.pieceLen mapping t.M * op.dk,
      a = op.getOperandAddr operandId +
        op.chunk (op.kvHeadIdx (op.headOff mapping t.batch) * (op.seq * op.dk) + j) := by
  have hin := h.inLoops_of_mem hsizes hmap htiles ht
  obtain ⟨hn, hm, -⟩ := of_mem hmap htiles ht
  have hheads := ((h.exists_tiles_iff hsizes hmap).mp ⟨tiles, htiles⟩ t.batch hn t.M hm).1
  have hhead : op.kvHeadIdx (op.headOff mapping t.batch) < op.nkvh :=
    InLoops.kvHeadIdx_lt hin hsizes hheads
  have hpiece := hin.piece_le
  have hbound := hsizes.run_le 0 (op.pieceLen mapping t.M) hhead (by omega)
  rw [Nat.add_zero, Nat.mul_assoc] at hbound
  rw [touched_kv hmap htiles ht hoperand, ← exists_row_iff]
  have hindex : ∀ s i, s < op.pieceLen mapping t.M → i < op.dk →
      op.elementAddress
          (op.kvHeadIdx (op.headOff mapping t.batch) * (op.seq * op.dk) + s * op.dk + i) =
        op.chunk (op.kvHeadIdx (op.headOff mapping t.batch) * (op.seq * op.dk) +
          (s * op.dk + i)) := by
    intro s i hs hi
    have hmul : (s + 1) * op.dk ≤ op.pieceLen mapping t.M * op.dk := Nat.mul_le_mul_right _ hs
    rw [Nat.succ_mul] at hmul
    rw [Node.elementAddress_eq, Nat.mod_eq_of_lt (by omega), Nat.add_assoc]
  constructor
  · rintro ⟨s, hs, hin', i, hi, rfl⟩
    have hlen : s < op.pieceLen mapping t.M := by
      unfold pieceLen
      omega
    exact ⟨s, hlen, i, hi, by rw [hindex s i hlen hi]⟩
  · rintro ⟨s, hlen, i, hi, rfl⟩
    have hlen' := hlen
    unfold pieceLen at hlen'
    exact ⟨s, by omega, by omega, i, hi, by rw [hindex s i hlen hi]⟩

omit h hsizes hmap htiles in
/-- What a tile is to read is a run of elements. -/
theorem due_run {t : Tile} {operandId : Nat} {a : AddrType} :
    (∃ s, t.M * blockSeqLen mapping ≤ s ∧ s < min ((t.M + 1) * blockSeqLen mapping) op.seq ∧
      ∃ i < op.dk, a = op.kvChunk operandId (op.group mapping t.batch) s i) ↔
    ∃ j < op.pieceLen mapping t.M * op.dk, a = op.getOperandAddr operandId +
      op.chunk ((op.group mapping t.batch * op.seq + t.M * blockSeqLen mapping) * op.dk + j) := by
  rw [← exists_row_iff]
  have hindex : ∀ s i, op.kvChunk operandId (op.group mapping t.batch)
      (t.M * blockSeqLen mapping + s) i = op.getOperandAddr operandId +
        op.chunk ((op.group mapping t.batch * op.seq + t.M * blockSeqLen mapping) * op.dk +
          (s * op.dk + i)) := by
    intro s i
    unfold kvChunk
    rw [← Nat.add_assoc (op.group mapping t.batch * op.seq), Nat.add_mul, Nat.add_assoc]
  have hnext : (t.M + 1) * blockSeqLen mapping =
      t.M * blockSeqLen mapping + blockSeqLen mapping := Nat.succ_mul _ _
  constructor
  · rintro ⟨s, hfrom, hto, i, hi, rfl⟩
    obtain ⟨s, rfl⟩ := Nat.exists_eq_add_of_le hfrom
    refine ⟨s, ?_, i, hi, hindex s i⟩
    unfold pieceLen
    omega
  · rintro ⟨s, hs, i, hi, rfl⟩
    unfold pieceLen at hs
    exact ⟨t.M * blockSeqLen mapping + s, by omega, by omega, i, hi, (hindex s i).symm⟩

/-- A tile reads its piece exactly when the run that it reads starts and ends in the same chunks. -/
theorem readsPiece_iff {t : Tile} (ht : t ∈ tiles) {operandId : Nat}
    (hoperand : operandId = INPUT_OPERAND + 1 ∨ operandId = INPUT_OPERAND + 2) :
    op.ReadsPiece mapping t operandId ↔ op.SamePiece mapping t.batch t.M := by
  have hin := h.inLoops_of_mem hsizes hmap htiles ht
  obtain ⟨hn, hm, -⟩ := of_mem hmap htiles ht
  have hheads := ((h.exists_tiles_iff hsizes hmap).mp ⟨tiles, htiles⟩ t.batch hn t.M hm).1
  have hhead : op.kvHeadIdx (op.headOff mapping t.batch) < op.nkvh :=
    InLoops.kvHeadIdx_lt hin hsizes hheads
  have hpiece := hin.piece_le
  have hread := hsizes.run_le 0 (op.pieceLen mapping t.M) hhead (by omega)
  rw [Nat.add_zero, Nat.mul_assoc] at hread
  have hdue := hsizes.run_le _ _ hin.group_lt hpiece
  have hpos : 0 < op.pieceLen mapping t.M * op.dk := Nat.mul_pos hin.pieceLen_pos hsizes.dk_pos
  unfold ReadsPiece
  simp only [h.touched_run hsizes hmap htiles ht hoperand, due_run]
  exact hsizes.divides.chunks_iff hpos hread hdue

/-- The tiles of a block of queries that read their pieces read everything. -/
theorem covered (hpieces : mapping.tileOutLoop.M = 0 → mapping.tileOutLoop.N = 0)
    {j head s : Nat} (hj : j < op.qlenOffset mapping) (hhead : head < op.nkvh) (hs : s < op.seq) :
    ∃ t ∈ tiles, t.batch % op.qlenOffset mapping = j ∧ ∀ operandId,
      op.ReadsPiece mapping t operandId → ∀ i < op.dk,
        Touched t.instructions .MOVIN operandId (op.kvChunk operandId head s i) := by
  have hseq := hsizes.seq_le
  have hlen : blockSeqLen mapping ≤ op.seq := h.seqLen_le
  have hblocks : mapping.tileOutLoop.N = op.qlenOffset mapping * op.nkvh := by
    rw [h.outer, h.qlenOffset_eq hsizes]
  have hn : head * op.qlenOffset mapping + j < mapping.tileOutLoop.N := by
    have hmul : (head + 1) * op.qlenOffset mapping ≤ op.nkvh * op.qlenOffset mapping :=
      Nat.mul_le_mul_right _ hhead
    rw [hblocks, Nat.mul_comm _ op.nkvh]
    rw [Nat.succ_mul] at hmul
    omega
  have hpos : 0 < blockSeqLen mapping := by
    refine Nat.pos_of_ne_zero fun hzero => ?_
    have hM : mapping.tileOutLoop.M = 0 := by
      rw [h.pieces, show mapping.tileInLoop.M = 0 from hzero, ceilDiv_zero]
    have hN := hpieces hM
    omega
  have hm : s / blockSeqLen mapping < mapping.tileOutLoop.M := by
    rw [h.pieces]
    refine (lt_ceilDiv_iff hpos (by omega)).mpr ?_
    exact (Nat.div_mul_le_self s _).trans_lt hs
  obtain ⟨t, ht, hbatch, hM⟩ := exists_tile hmap htiles hn hm
  refine ⟨t, ht, ?_, fun operandId hreads i hi => (hreads _).mpr ⟨s, ?_, ?_, i, hi, ?_⟩⟩
  · rw [hbatch, Nat.mul_add_mod', Nat.mod_eq_of_lt hj]
  · rw [hM]
    exact Nat.div_mul_le_self s _
  · have hnext := Nat.lt_div_mul_add hpos (a := s)
    rw [hM, Nat.succ_mul]
    omega
  · have hgroup : op.group mapping t.batch = head := by
      unfold group
      rw [hbatch, Nat.mul_comm, Nat.mul_add_div (by omega), Nat.div_eq_of_lt hj, Nat.add_zero]
    rw [hgroup]

theorem readsRight_iff (hpieces : mapping.tileOutLoop.M = 0 → mapping.tileOutLoop.N = 0) :
    op.ReadsRight mapping tiles ↔ ∀ n < mapping.tileOutLoop.N, ∀ m < mapping.tileOutLoop.M,
      op.SamePiece mapping n m := by
  constructor
  · intro hright n hn m hm
    obtain ⟨t, ht, rfl, rfl⟩ := exists_tile hmap htiles hn hm
    exact (h.readsPiece_iff hsizes hmap htiles ht (.inl rfl)).mp (hright.keys t ht)
  · intro hsame
    have hreads : ∀ {operandId}, operandId = INPUT_OPERAND + 1 ∨ operandId = INPUT_OPERAND + 2 →
        ∀ t ∈ tiles, op.ReadsPiece mapping t operandId := by
      intro operandId hoperand t ht
      obtain ⟨hn, hm, -⟩ := of_mem hmap htiles ht
      exact (h.readsPiece_iff hsizes hmap htiles ht hoperand).mpr (hsame _ hn _ hm)
    refine ⟨hreads (.inl rfl), hreads (.inr rfl), fun j hj head hhead s hs i hi => ?_⟩
    obtain ⟨t, ht, hj, hread⟩ := h.covered hsizes hmap htiles hpieces hj hhead hs
    exact ⟨t, ht, hj, hread _ (hreads (.inl rfl) t ht) i hi,
      hread _ (hreads (.inr rfl) t ht) i hi⟩

end Cut

/-- Every tile of the loops is made, and the run that it reads starts and ends in the chunks of its
piece. -/
structure ReadsPieces (op : Attention) (mapping : Mapping) : Prop where
  pieces : mapping.tileOutLoop.M = 0 → mapping.tileOutLoop.N = 0
  made : ∀ n < mapping.tileOutLoop.N, ∀ m < mapping.tileOutLoop.M, op.headsPerKv ≤ op.nkvh ∧
    op.StoresInRange mapping (blockQLen mapping op.headsPerKv) m
  same : ∀ n < mapping.tileOutLoop.N, ∀ m < mapping.tileOutLoop.M, op.SamePiece mapping n m

/-- `initialize_tiles` makes tiles that read the keys and values of their key heads exactly when the
runs that they read are in the same chunks. -/
theorem reads_right_iff (hsizes : op.Sizes) :
    (∃ mapping tiles, op.calculateLoops = some mapping ∧
      op.initializeTiles op.initializeInstructions = some tiles ∧ op.ReadsRight mapping tiles) ↔
    ∃ mapping, op.calculateLoops = some mapping ∧ op.ReadsPieces mapping := by
  constructor
  · rintro ⟨mapping, tiles, hmap, htiles, hright⟩
    obtain ⟨qLen, hcut⟩ := hsizes.exists_cut hmap
    have hpieces : mapping.tileOutLoop.M = 0 → mapping.tileOutLoop.N = 0 := by
      -- without tiles no key is read
      refine fun hnone => by_contra fun hblocks => ?_
      have hoffset : 0 < op.qlenOffset mapping := by
        rw [hcut.qlenOffset_eq hsizes]
        refine Nat.pos_of_ne_zero fun hzero => hblocks ?_
        rw [hcut.outer, hzero, Nat.zero_mul]
      obtain ⟨t, ht, -⟩ := hright.covered 0 hoffset 0 hsizes.nkvh_pos 0 hsizes.seq_pos 0
        hsizes.dk_pos
      have hm := (Cut.of_mem hmap htiles ht).2.1
      omega
    refine ⟨mapping, hmap, hpieces, ?_, (hcut.readsRight_iff hsizes hmap htiles hpieces).mp hright⟩
    rw [hcut.blockQLen_eq hsizes]
    exact (hcut.exists_tiles_iff hsizes hmap).mp ⟨tiles, htiles⟩
  · rintro ⟨mapping, hmap, hreads⟩
    obtain ⟨qLen, hcut⟩ := hsizes.exists_cut hmap
    have hmade := hreads.made
    rw [hcut.blockQLen_eq hsizes] at hmade
    obtain ⟨tiles, htiles⟩ := (hcut.exists_tiles_iff hsizes hmap).mpr hmade
    exact ⟨mapping, tiles, hmap, htiles,
      (hcut.readsRight_iff hsizes hmap htiles hreads.pieces).mpr hreads.same⟩

/-! ## Two heads -/

/-- Two heads of eight elements with one query and one key; an access has eight elements. -/
def twoHeads : Attention where
  id := 0
  inputs := [0, 64, 128]
  outputs := [192]
  config := {
    numCores := 1
    dramChannels := 1
    dramReqSize := 32
    coreConfig := fun _ => { coreHeight := 8, spadSize := 1, accumSpadSize := 1 } }
  qLen := 1
  seq := 1
  nh := 2
  nkvh := 2
  dk := 8

theorem twoHeads_sizes : twoHeads.Sizes := by
  constructor
  case divides => exact ⟨by decide, by decide, by decide, by decide⟩
  all_goals decide

/-- The tile of the second head reads the keys of the first. -/
theorem twoHeads_reads_first : ¬ ∀ op : Attention, op.Sizes →
    ∃ mapping tiles, op.calculateLoops = some mapping ∧
      op.initializeTiles op.initializeInstructions = some tiles ∧ op.ReadsRight mapping tiles := by
  intro hall
  obtain ⟨mapping, tiles, hmap, htiles, hright⟩ := hall twoHeads twoHeads_sizes
  obtain ⟨qLen, hcut⟩ := twoHeads_sizes.exists_cut hmap
  have hvalue : twoHeads.calculateLoops = some {
      totalLoop := { N := 2, C := 8, M := 1 }
      tileInLoop := { N := 1, C := 8, M := 1 }
      tileOutLoop := { N := 2, C := 1, M := 1 } } := by decide
  obtain rfl := Option.some.inj (hvalue.symm.trans hmap)
  obtain ⟨t, ht, hn, hm⟩ := Cut.exists_tile hmap htiles (n := 1) (m := 0) (by decide) (by decide)
  have hsame := (hcut.readsPiece_iff twoHeads_sizes hmap htiles ht (.inl rfl)).mp (hright.keys t ht)
  rw [hn, hm] at hsame
  exact absurd hsame.1 (by decide)

/-- The criterion for these heads. -/
theorem reads_right_iff_twoHeads :
    (∃ mapping tiles, twoHeads.calculateLoops = some mapping ∧
      twoHeads.initializeTiles twoHeads.initializeInstructions = some tiles ∧
        twoHeads.ReadsRight mapping tiles) ↔
      ∃ mapping, twoHeads.calculateLoops = some mapping ∧ twoHeads.ReadsPieces mapping :=
  reads_right_iff twoHeads_sizes

end Attention

end OnnxSim
