import OnnxSim.Operations.AttentionTiles

/-!
# The rows that an attention stores

A tile loads the queries of its block, and the last tile of a block in the sequence is to store their
rows of the output. `initialize_instructions` has the number of the tile in its sequence, and not that
of its block, for the block of rows to store, so all blocks of queries store the same rows. The tiles
store the right rows exactly when there is one tile for a key head or the whole output is in one access
(`Attention.writes_right_iff`).
-/

namespace OnnxSim

namespace Attention

variable (op : Attention) (mapping : Mapping)

def outputIndex (q h i : Nat) : Nat := (q * op.nh + h) * op.dk + i

/-- The chunk of an element of the output. -/
def outputChunk (q h i : Nat) : AddrType :=
  op.getOperandAddr OUTPUT_OPERAND + op.chunk (op.outputIndex q h i)

/-- The chunk of an element of the queries. -/
def queryChunk (q h i : Nat) : AddrType :=
  op.getOperandAddr INPUT_OPERAND + op.chunk ((h * op.qLen + q) * op.dk + i)

/-- Query `q` for head `h` is in the block of the tile. -/
def InBlock (t : Tile) (q h : Nat) : Prop :=
  op.group mapping t.batch = h / op.headsPerKv ∧
    t.batch % op.qlenOffset mapping = q / blockQLen mapping op.headsPerKv

/-- Each tile loads the queries of its block, the last tile of the block in the sequence stores their
rows, and what a tile stores is in a chunk of one of its rows. -/
structure WritesRight (tiles : List Tile) : Prop where
  loaded : ∀ t ∈ tiles, ∀ a, Touched t.instructions .MOVIN INPUT_OPERAND a ↔
    ∃ q < op.qLen, ∃ h < op.nh, op.InBlock mapping t q h ∧ ∃ i < op.dk, a = op.queryChunk q h i
  stored : ∀ q < op.qLen, ∀ h < op.nh, ∀ i < op.dk, ∃ t ∈ tiles, op.InBlock mapping t q h ∧
    t.M + 1 = mapping.tileOutLoop.M ∧
      Touched t.instructions .MOVOUT OUTPUT_OPERAND (op.outputChunk q h i)
  only : ∀ t ∈ tiles, ∀ a, Touched t.instructions .MOVOUT OUTPUT_OPERAND a →
    ∃ q < op.qLen, ∃ h < op.nh, op.InBlock mapping t q h ∧ ∃ i < op.dk, a = op.outputChunk q h i

variable {op mapping} {qLen : Nat}

/-! ## Elements of the output -/

theorem outputIndex_lt {q h i n : Nat} (hq : q < n) (hh : h < op.nh) (hi : i < op.dk) :
    op.outputIndex q h i < n * op.nh * op.dk := by
  have hrow : (q + 1) * op.nh ≤ n * op.nh := Nat.mul_le_mul_right _ hq
  have hhead : (q * op.nh + h + 1) * op.dk ≤ n * op.nh * op.dk := by
    refine Nat.mul_le_mul_right _ ?_
    rw [Nat.succ_mul] at hrow
    omega
  rw [Nat.succ_mul] at hhead
  unfold outputIndex
  omega

/-- The elements of a row come before those of the next one. -/
theorem outputIndex_lt_of_lt {q h i q' : Nat} (h' i' : Nat) (hq : q < q') (hh : h < op.nh)
    (hi : i < op.dk) : op.outputIndex q h i < op.outputIndex q' h' i' := by
  have hlt := outputIndex_lt hq hh hi
  have hrow : q' * op.nh * op.dk ≤ (q' * op.nh + h') * op.dk :=
    Nat.mul_le_mul_right _ (Nat.le_add_right _ _)
  unfold outputIndex at *
  omega

namespace Sizes

variable (hsizes : op.Sizes)
include hsizes

theorem group_lt {head : Nat} (hhead : head < op.nh) : head / op.headsPerKv < op.nkvh := by
  refine Nat.div_lt_of_lt_mul ?_
  rw [Nat.mul_comm, hsizes.nh_eq]
  exact hhead

theorem outputChunk_inj {q h i q' h' i' : Nat} (hq : q < op.qLen) (hh : h < op.nh)
    (hi : i < op.dk) (hq' : q' < op.qLen) (hh' : h' < op.nh) (hi' : i' < op.dk) :
    op.outputChunk q h i = op.outputChunk q' h' i' ↔
      op.outputIndex q h i / (op.config.dramReqSize / op.config.precision) =
        op.outputIndex q' h' i' / (op.config.dramReqSize / op.config.precision) := by
  have hlt := outputIndex_lt hq hh hi
  have hlt' := outputIndex_lt hq' hh' hi'
  have hsize := hsizes.queries_lt
  exact hsizes.divides.chunk_inj (by omega) (by omega)

/-- All elements are in the first chunk if the last one is. -/
theorem output_le_of_last
    (hlast : op.outputIndex (op.qLen - 1) (op.nh - 1) (op.dk - 1) /
      (op.config.dramReqSize / op.config.precision) = 0) :
    op.qLen * op.nh * op.dk ≤ op.config.dramReqSize / op.config.precision := by
  have helems := hsizes.divides.elems_pos
  have hlt := (Nat.div_eq_zero_iff_lt helems).mp hlast
  have hend : op.outputIndex (op.qLen - 1) (op.nh - 1) (op.dk - 1) + 1 =
      op.qLen * op.nh * op.dk := by
    unfold outputIndex
    have hrow : (op.qLen - 1) * op.nh + op.nh = op.qLen * op.nh := by
      rw [← Nat.succ_mul, Nat.succ_eq_add_one, Nat.sub_add_cancel hsizes.qLen_pos]
    have hnh := hsizes.nh_pos
    have hdk := hsizes.dk_pos
    have hhead : ((op.qLen - 1) * op.nh + (op.nh - 1)) * op.dk + op.dk =
        op.qLen * op.nh * op.dk := by
      rw [← Nat.succ_mul, ← hrow]
      congr 1
      omega
    omega
  omega

/-- All elements have one chunk where the output is not more than an access. -/
theorem outputChunk_eq (hall : op.qLen * op.nh * op.dk ≤ op.config.dramReqSize / op.config.precision)
    {q h i q' h' i' : Nat} (hq : q < op.qLen) (hh : h < op.nh) (hi : i < op.dk)
    (hq' : q' < op.qLen) (hh' : h' < op.nh) (hi' : i' < op.dk) :
    op.outputChunk q h i = op.outputChunk q' h' i' := by
  have hlt := outputIndex_lt hq hh hi
  have hlt' := outputIndex_lt hq' hh' hi'
  rw [hsizes.outputChunk_inj hq hh hi hq' hh' hi', Nat.div_eq_of_lt (by omega),
    Nat.div_eq_of_lt (by omega)]

end Sizes

/-! ## What the tiles load and store -/

variable {tile : Tile} {headIdx numHeads : Nat} {kv : List AddrType}
  {queries stores : List Instruction}

theorem touched_query {k : Nat} {i : Instruction}
    (hi : op.queryMovin mapping tile headIdx numHeads k = some i) {a : AddrType} :
    a ∈ i.srcAddrs ↔ ∃ s < blockQLen mapping numHeads,
      op.qOffset mapping tile * blockQLen mapping numHeads + s < op.qLen ∧ ∃ j < op.dk,
        a = op.getOperandAddr INPUT_OPERAND + op.elementAddress ((headIdx + k) * (op.qLen * op.dk) +
          (op.qOffset mapping tile * blockQLen mapping numHeads + s) * op.dk + j) := by
  obtain ⟨addrs, haddrs, hi⟩ := Option.bind_eq_some_iff.mp hi
  have hsrc : a ∈ addrs.map (op.getOperandAddr INPUT_OPERAND + ·) ↔ _ :=
    mem_addresses haddrs (fun p => (headIdx + k) * (op.qLen * op.dk) + p.1 * op.dk + p.2)
      fun p _ b hb => (makeAddress_query.mp hb).2.2.2
  obtain rfl := Option.some.inj hi
  refine mem_addrSet.trans (hsrc.trans ?_)
  constructor
  · rintro ⟨p, hp, rfl⟩
    obtain ⟨s, hs, hin, j, hj, rfl⟩ := mem_queryElements.mp hp
    exact ⟨s, hs, hin, j, hj, rfl⟩
  · rintro ⟨s, hs, hin, j, hj, rfl⟩
    exact ⟨_, mem_queryElements.mpr ⟨s, hs, hin, j, hj, rfl⟩, rfl⟩

/-- The sources of the MOVINs of the queries. -/
theorem Parts.touched_queries (h : Parts op mapping tile headIdx numHeads kv queries stores)
    {a : AddrType} :
    Touched (op.keyMovin mapping headIdx numHeads kv :: queries ++
        [op.valueMovin mapping headIdx numHeads kv] ++ op.computes mapping headIdx numHeads ++
          stores) .MOVIN INPUT_OPERAND a ↔
      ∃ k < numHeads, ∃ i, op.queryMovin mapping tile headIdx numHeads k = some i ∧
        a ∈ i.srcAddrs := by
  constructor
  · rintro ⟨i, hi, hopcode, hid, ha⟩
    rcases List.mem_append.mp hi with hi | hi
    · rcases List.mem_append.mp hi with hi | hi
      · rcases List.mem_append.mp hi with hi | hi
        · rcases List.mem_cons.mp hi with rfl | hi
          · cases hid
          · obtain ⟨k, hk, hquery⟩ := Loops.exists_of_mem h.queries hi
            exact ⟨k, List.mem_range.mp hk, i, hquery, ha⟩
        · obtain rfl := List.mem_singleton.mp hi
          cases hid
      · exact absurd hopcode (opcode_of_computes hi).1
    · exact absurd hopcode (h.opcode_of_stores hi)
  · rintro ⟨k, hk, i, hquery, ha⟩
    have hi := (Loops.mem_iff_of_mapM h.queries).mpr ⟨k, List.mem_range.mpr hk, hquery⟩
    obtain ⟨hopcode, hid⟩ := queryMovin_spec hquery
    exact ⟨i, by simp [hi], hopcode, hid, ha⟩

namespace Cut

variable (h : op.Cut mapping qLen) (hsizes : op.Sizes) (hmap : op.calculateLoops = some mapping)
  {tiles : List Tile} (htiles : op.initializeTiles op.initializeInstructions = some tiles)
include h hsizes hmap htiles

/-- The heads of a tile are those of its key head. -/
theorem exists_head_iff {t : Tile} (ht : t ∈ tiles) {P : Nat → Prop} :
    (∃ k < op.headsPerKv, P (op.headOff mapping t.batch + k)) ↔
      ∃ head < op.nh, op.group mapping t.batch = head / op.headsPerKv ∧ P head := by
  have hin := h.inLoops_of_mem hsizes hmap htiles ht
  have hpos := hsizes.headsPerKv_pos
  unfold headOff
  constructor
  · rintro ⟨k, hk, hP⟩
    refine ⟨_, InLoops.headOff_lt hin hsizes hk, ?_, hP⟩
    unfold headOff
    rw [Nat.mul_comm, Nat.mul_add_div hpos, Nat.div_eq_of_lt hk, Nat.add_zero]
  · rintro ⟨head, -, hgroup, hP⟩
    refine ⟨head % op.headsPerKv, Nat.mod_lt _ hpos, ?_⟩
    rwa [hgroup, Nat.div_add_mod']

/-- The queries that a tile loads are those of its block. -/
theorem touched_queries {t : Tile} (ht : t ∈ tiles) {a : AddrType} :
    Touched t.instructions .MOVIN INPUT_OPERAND a ↔
      ∃ q < op.qLen, ∃ head < op.nh, op.InBlock mapping t q head ∧
        ∃ i < op.dk, a = op.queryChunk q head i := by
  have hin := h.inLoops_of_mem hsizes hmap htiles ht
  obtain ⟨-, -, tile, hbatch, -, his⟩ := of_mem hmap htiles ht
  obtain ⟨-, kv, queries, stores, hparts, heq⟩ := initializeInstructions_eq_some_iff.mp his
  have hchunk : ∀ q head i, q < op.qLen → head < op.nh → i < op.dk →
      op.elementAddress (head * (op.qLen * op.dk) + q * op.dk + i) =
        op.chunk ((head * op.qLen + q) * op.dk + i) := by
    intro q head i hq hhead hi
    have hrow : (head + 1) * op.qLen ≤ op.nh * op.qLen := Nat.mul_le_mul_right _ hhead
    have hrows : (head * op.qLen + q + 1) * op.dk ≤ op.nh * op.qLen * op.dk := by
      refine Nat.mul_le_mul_right _ ?_
      rw [Nat.succ_mul] at hrow
      omega
    have hsize := hsizes.queries_lt
    rw [Nat.mul_comm op.qLen] at hsize
    rw [Nat.succ_mul] at hrows
    rw [Node.elementAddress_eq, ← Nat.mul_assoc, ← Nat.add_mul, Nat.mod_eq_of_lt (by omega)]
  rw [heq, hparts.touched_queries]
  constructor
  · rintro ⟨k, hk, i, hquery, ha⟩
    obtain ⟨s, hs, hq, j, hj, rfl⟩ := (touched_query hquery).mp ha
    obtain ⟨head, hhead, hgroup, hP⟩ := (h.exists_head_iff hsizes hmap htiles ht
      (P := (· = op.headOff mapping t.batch + k))).mp ⟨k, hk, rfl⟩
    refine ⟨_, hq, head, hhead, ⟨hgroup, ?_⟩, j, hj, ?_⟩
    · unfold qOffset
      rw [hbatch, Nat.mul_comm, Nat.mul_add_div (by omega), Nat.div_eq_of_lt hs, Nat.add_zero]
    · subst hP
      rw [hchunk _ _ _ hq hhead hj]
      rfl
  · rintro ⟨q, hq, head, hhead, ⟨hgroup, hblock⟩, i, hi, rfl⟩
    have hlen : 0 < blockQLen mapping op.headsPerKv := by
      rw [h.blockQLen_eq hsizes]
      exact hin.qLen_pos
    obtain ⟨k, hk, rfl⟩ := (h.exists_head_iff hsizes hmap htiles ht (P := (· = head))).mpr
      ⟨head, hhead, hgroup, rfl⟩
    obtain ⟨x, hx⟩ := Loops.exists_mapM_iff.mp ⟨queries, hparts.queries⟩ k (List.mem_range.mpr hk)
    have hstart : op.qOffset mapping tile * blockQLen mapping op.headsPerKv +
        q % blockQLen mapping op.headsPerKv = q := by
      unfold qOffset
      rw [hbatch, hblock, Nat.div_add_mod']
    refine ⟨k, hk, x, hx, (touched_query hx).mpr
      ⟨q % blockQLen mapping op.headsPerKv, Nat.mod_lt _ hlen, ?_, i, hi, ?_⟩⟩
    · rwa [hstart]
    · rw [hstart, hchunk _ _ _ hq hhead hi]
      rfl

/-- The rows that the last tile of a block in the sequence stores. -/
theorem touched_rows {t : Tile} (ht : t ∈ tiles) {a : AddrType} :
    Touched t.instructions .MOVOUT OUTPUT_OPERAND a ↔ t.M + 1 = mapping.tileOutLoop.M ∧
      ∃ head < op.nh, op.group mapping t.batch = head / op.headsPerKv ∧
        ∃ s < qLen, t.M * qLen + s < op.qLen ∧
          ∃ i < op.dk, a = op.outputChunk (t.M * qLen + s) head i := by
  have hchunk : ∀ q head i, q < op.qLen → head < op.nh → i < op.dk →
      op.elementAddress (q * (op.nh * op.dk) + head * op.dk + i) =
        op.chunk (op.outputIndex q head i) := by
    intro q head i hq hhead hi
    have hlt := outputIndex_lt hq hhead hi
    have hsize := hsizes.queries_lt
    unfold outputIndex at *
    rw [Node.elementAddress_eq, ← Nat.mul_assoc, ← Nat.add_mul, Nat.mod_eq_of_lt (by omega)]
  have hin := h.inLoops_of_mem hsizes hmap htiles ht
  rw [h.touched_outputs hsizes hmap htiles ht, ← h.exists_head_iff hsizes hmap htiles ht]
  refine and_congr_right fun _ => exists_congr fun k => and_congr_right fun hk => exists_congr fun s =>
    and_congr_right fun _ => and_congr_right fun hq => exists_congr fun i =>
      and_congr_right fun hi => ?_
  rw [hchunk _ _ _ hq (InLoops.headOff_lt hin hsizes hk) hi]
  rfl

/-- A row that is stored has its tile for each key head and block. -/
theorem exists_last_tile {group j : Nat} (hgroup : group < op.nkvh) (hj : j < op.qlenOffset mapping)
    (hM : 0 < mapping.tileOutLoop.M) : ∃ t ∈ tiles, op.group mapping t.batch = group ∧
      t.batch % op.qlenOffset mapping = j ∧ t.M + 1 = mapping.tileOutLoop.M := by
  have hblocks : mapping.tileOutLoop.N = op.nkvh * op.qlenOffset mapping := by
    rw [h.outer, h.qlenOffset_eq hsizes, Nat.mul_comm]
  have hn : group * op.qlenOffset mapping + j < mapping.tileOutLoop.N := by
    have hmul : (group + 1) * op.qlenOffset mapping ≤ op.nkvh * op.qlenOffset mapping :=
      Nat.mul_le_mul_right _ hgroup
    rw [hblocks]
    rw [Nat.succ_mul] at hmul
    omega
  have hm : mapping.tileOutLoop.M - 1 < mapping.tileOutLoop.M := by omega
  obtain ⟨t, ht, hbatch, htM⟩ := exists_tile hmap htiles hn hm
  refine ⟨t, ht, ?_, ?_, by omega⟩
  · unfold Attention.group
    rw [hbatch, Nat.mul_comm, Nat.mul_add_div (by omega), Nat.div_eq_of_lt hj, Nat.add_zero]
  · rw [hbatch, Nat.mul_add_mod', Nat.mod_eq_of_lt hj]

/-- Where there is more than one tile for a key head and the tiles store the right rows, all that they
store is in the first chunk. -/
theorem stored_first (hright : op.WritesRight mapping tiles)
    (hmany : ¬ (op.qlenOffset mapping = 1 ∧ mapping.tileOutLoop.M = 1)) {t : Tile} (ht : t ∈ tiles)
    (hlast : t.M + 1 = mapping.tileOutLoop.M) {head s i : Nat} (hhead : head < op.nh)
    (hs : s < qLen) (hrow : t.M * qLen + s < op.qLen) (hi : i < op.dk) :
    op.outputIndex (t.M * qLen + s) head i /
      (op.config.dramReqSize / op.config.precision) = 0 := by
  have hin := h.inLoops_of_mem hsizes hmap htiles ht
  have hblock := h.blockQLen_eq hsizes
  have hlen : blockQLen mapping op.headsPerKv ≠ 0 := by
    rw [hblock]
    exact hin.qLen_pos.ne'
  by_cases hone : mapping.tileOutLoop.M = 1
  · -- the last block stores the first row, so the first chunk goes as far as its own rows
    have hoffset : 1 < op.qlenOffset mapping := by
      have hpos := hin.offset_pos
      omega
    obtain ⟨u, hu, hgroup, hj, hulast⟩ := h.exists_last_tile hsizes hmap htiles hsizes.nkvh_pos
      (j := op.qlenOffset mapping - 1) (by omega) (by omega)
    have huM : u.M = 0 := by omega
    have hstore := (h.touched_rows hsizes hmap htiles hu).mpr ⟨hulast, 0, hsizes.nh_pos,
      by rw [hgroup, Nat.zero_div], 0, hin.qLen_pos, by simpa [huM] using hsizes.qLen_pos, 0,
      hsizes.dk_pos, rfl⟩
    obtain ⟨q, hq, head', hhead', ⟨-, hown⟩, i', hi', heq⟩ := hright.only u hu _ hstore
    rw [huM, Nat.zero_mul, Nat.zero_add, hsizes.outputChunk_inj hsizes.qLen_pos hsizes.nh_pos
      hsizes.dk_pos hq hhead' hi'] at heq
    have hlater : t.M * qLen + s < q := by
      have hdiv : 1 ≤ q / blockQLen mapping op.headsPerKv := by omega
      rw [hblock] at hdiv
      have hle := (Nat.le_div_iff_mul_le hin.qLen_pos).mp hdiv
      have htM : t.M = 0 := by omega
      rw [htM]
      omega
    have hbefore := (outputIndex_lt_of_lt head' i' hlater hhead hi).le
    have hle := Nat.div_le_div_right (c := op.config.dramReqSize / op.config.precision) hbefore
    have hfirst : op.outputIndex 0 0 0 = 0 := by simp [outputIndex]
    rw [hfirst, Nat.zero_div] at heq
    exact Nat.le_zero.mp (hle.trans heq.ge)
  · -- the first block stores a later row, and the first chunk goes as far as that one
    have hqLen : qLen = 1 := by
      refine h.one.resolve_right fun hwhole => hone ?_
      have hpieces := h.pieces
      have hseq := hsizes.seq_pos
      have hle := hsizes.seq_le
      unfold ceilDiv at hpieces
      rw [hwhole, if_neg hseq.ne', wrap_of_lt (by omega)] at hpieces
      rw [hpieces]
      exact Nat.div_eq_of_lt_le (by omega) (by omega)
    subst hqLen
    have hs0 : s = 0 := by omega
    subst hs0
    rw [Nat.mul_one, Nat.add_zero] at *
    have hM : 0 < t.M := by omega
    -- row `t.M` is stored for the first element
    obtain ⟨u, hu, -, hulast, hustored⟩ := hright.stored 0 hsizes.qLen_pos 0 hsizes.nh_pos 0
      hsizes.dk_pos
    obtain ⟨-, head', hhead', -, s', hs', hrow', i', hi', heq⟩ :=
      (h.touched_rows hsizes hmap htiles hu).mp hustored
    have huM : u.M = t.M := by omega
    have hs0 : s' = 0 := by omega
    rw [huM, hs0, Nat.mul_one, Nat.add_zero] at heq
    rw [hsizes.outputChunk_inj hsizes.qLen_pos hsizes.nh_pos hsizes.dk_pos hrow hhead' hi'] at heq
    -- and for the first row
    obtain ⟨v, hv, hgroup, hj, hvlast⟩ := h.exists_last_tile hsizes hmap htiles
      (hsizes.group_lt hhead) hin.offset_pos (by omega)
    have hvM : v.M = t.M := by omega
    have hstore := (h.touched_rows hsizes hmap htiles hv).mpr ⟨hvlast, head, hhead, hgroup, 0,
      Nat.one_pos, by rw [hvM, Nat.mul_one, Nat.add_zero]; exact hrow, i, hi, rfl⟩
    obtain ⟨q, hq, head'', hhead'', ⟨-, hown⟩, i'', hi'', heq'⟩ := hright.only v hv _ hstore
    rw [hvM, Nat.mul_one, Nat.add_zero, hsizes.outputChunk_inj hrow hhead hi hq hhead'' hi''] at heq'
    rw [hj, hblock, Nat.div_one] at hown
    subst hown
    have hbefore := (outputIndex_lt_of_lt head' i' hM hhead'' hi'').le
    have hle := Nat.div_le_div_right (c := op.config.dramReqSize / op.config.precision) hbefore
    have hfirst : op.outputIndex 0 0 0 = 0 := by simp [outputIndex]
    rw [hfirst, Nat.zero_div] at heq
    rw [heq']
    exact Nat.le_zero.mp (hle.trans heq.ge)

omit hmap htiles in
theorem qLen_pos_of_offset (hoffset : 0 < op.qlenOffset mapping) : 0 < qLen := by
  refine Nat.pos_of_ne_zero fun hzero => hoffset.ne' ?_
  rw [h.qlenOffset_eq hsizes, hzero, ceilDiv_zero]

/-- One tile for each key head stores all rows. -/
theorem writesRight_of_one (hoffset : op.qlenOffset mapping = 1)
    (hM : mapping.tileOutLoop.M = 1) : op.WritesRight mapping tiles := by
  have hblock := h.blockQLen_eq hsizes
  have hqLen : qLen = op.qLen := by
    have hle := hsizes.qLen_le
    have hq := h.qLen_le
    have hpos := h.qLen_pos_of_offset hsizes (by omega)
    rw [h.qlenOffset_eq hsizes] at hoffset
    have hcover := (ceilDiv_le_iff (c := 1) hpos (by omega)).mp hoffset.le
    omega
  refine ⟨fun t ht a => h.touched_queries hsizes hmap htiles ht, ?_, ?_⟩
  · intro q hq head hhead i hi
    obtain ⟨t, ht, hgroup, hj, hlast⟩ := h.exists_last_tile hsizes hmap htiles
      (hsizes.group_lt hhead) (j := 0) (by omega) (by omega)
    have htM : t.M = 0 := by omega
    refine ⟨t, ht, ⟨hgroup, ?_⟩, hlast, (h.touched_rows hsizes hmap htiles ht).mpr
      ⟨hlast, head, hhead, hgroup, q, by omega, ?_, i, hi, ?_⟩⟩
    · rw [hj, hblock, Nat.div_eq_of_lt (by omega)]
    · rw [htM]
      omega
    · rw [htM, Nat.zero_mul, Nat.zero_add]
  · intro t ht a hstored
    obtain ⟨hlast, head, hhead, hgroup, s, hs, hrow, i, hi, rfl⟩ :=
      (h.touched_rows hsizes hmap htiles ht).mp hstored
    have htM : t.M = 0 := by omega
    refine ⟨_, hrow, head, hhead, ⟨hgroup, ?_⟩, i, hi, rfl⟩
    rw [hoffset, Nat.mod_one, hblock, htM, Nat.zero_mul, Nat.zero_add, Nat.div_eq_of_lt hs]

/-- Where the output is one access, any row that is stored will do. -/
theorem writesRight_of_first (hoffset : 0 < op.qlenOffset mapping)
    (hM : 0 < mapping.tileOutLoop.M) (hrow : (mapping.tileOutLoop.M - 1) * qLen < op.qLen)
    (hall : op.qLen * op.nh * op.dk ≤ op.config.dramReqSize / op.config.precision) :
    op.WritesRight mapping tiles := by
  have hblock := h.blockQLen_eq hsizes
  refine ⟨fun t ht a => h.touched_queries hsizes hmap htiles ht, ?_, ?_⟩
  · intro q hq head hhead i hi
    have hj : q / qLen < op.qlenOffset mapping := by
      have hlen := h.qLen_pos_of_offset hsizes hoffset
      have hle := hsizes.qLen_le
      have hqLen := h.qLen_le
      rw [h.qlenOffset_eq hsizes]
      refine (lt_ceilDiv_iff hlen (by omega)).mpr ?_
      exact (Nat.div_mul_le_self q qLen).trans_lt hq
    obtain ⟨t, ht, hgroup, hj, hlast⟩ :=
      h.exists_last_tile hsizes hmap htiles (hsizes.group_lt hhead) hj hM
    have hin := h.inLoops_of_mem hsizes hmap htiles ht
    have htM : t.M = mapping.tileOutLoop.M - 1 := by omega
    rw [← htM] at hrow
    refine ⟨t, ht, ⟨hgroup, by rw [hj, hblock]⟩, hlast,
      (h.touched_rows hsizes hmap htiles ht).mpr
        ⟨hlast, head, hhead, hgroup, 0, hin.qLen_pos, hrow, i, hi, ?_⟩⟩
    exact hsizes.outputChunk_eq hall hq hhead hi hrow hhead hi
  · intro t ht a hstored
    obtain ⟨hlast, head, hhead, hgroup, s, hs, hrow', i, hi, rfl⟩ :=
      (h.touched_rows hsizes hmap htiles ht).mp hstored
    have hin := h.inLoops_of_mem hsizes hmap htiles ht
    refine ⟨_, hin.row_lt, head, hhead, ⟨hgroup, ?_⟩, i, hi,
      hsizes.outputChunk_eq hall hrow' hhead hi hin.row_lt hhead hi⟩
    rw [hblock, Nat.mul_div_cancel _ hin.qLen_pos]

theorem writesRight_iff : op.WritesRight mapping tiles ↔
    0 < op.qlenOffset mapping ∧ 0 < mapping.tileOutLoop.M ∧
      (op.qlenOffset mapping = 1 ∧ mapping.tileOutLoop.M = 1 ∨
        (mapping.tileOutLoop.M - 1) * qLen < op.qLen ∧
          op.qLen * op.nh * op.dk ≤ op.config.dramReqSize / op.config.precision) := by
  constructor
  · intro hright
    obtain ⟨t, ht, -, hlast, hstored⟩ := hright.stored 0 hsizes.qLen_pos 0 hsizes.nh_pos 0
      hsizes.dk_pos
    obtain ⟨-, -, -, -, s, -, hrow, -⟩ := (h.touched_rows hsizes hmap htiles ht).mp hstored
    have hin := h.inLoops_of_mem hsizes hmap htiles ht
    refine ⟨hin.offset_pos, by omega, or_iff_not_imp_left.mpr fun hmany => ⟨?_, ?_⟩⟩
    · rw [← hlast, Nat.add_sub_cancel]
      omega
    · -- the last element is in the chunk of one that is stored
      have hq : op.qLen - 1 < op.qLen := Nat.sub_lt hsizes.qLen_pos Nat.one_pos
      have hh : op.nh - 1 < op.nh := Nat.sub_lt hsizes.nh_pos Nat.one_pos
      have hk : op.dk - 1 < op.dk := Nat.sub_lt hsizes.dk_pos Nat.one_pos
      obtain ⟨u, hu, -, hulast, hustored⟩ := hright.stored _ hq _ hh _ hk
      obtain ⟨-, head, hhead, -, s, hs, hrow, i, hi, heq⟩ :=
        (h.touched_rows hsizes hmap htiles hu).mp hustored
      rw [hsizes.outputChunk_inj hq hh hk hrow hhead hi,
        h.stored_first hsizes hmap htiles hright hmany hu hulast hhead hs hrow hi] at heq
      exact hsizes.output_le_of_last heq
  · rintro ⟨hoffset, hM, ⟨hone, hone'⟩ | ⟨hrow, hall⟩⟩
    · exact h.writesRight_of_one hsizes hmap htiles hone hone'
    · exact h.writesRight_of_first hsizes hmap htiles hoffset hM hrow hall

end Cut

/-- Every tile of the loops is made, and there is one for each key head or the output is one access, of
which a row is stored. -/
structure WritesRows (op : Attention) (mapping : Mapping) : Prop where
  made : ∀ n < mapping.tileOutLoop.N, ∀ m < mapping.tileOutLoop.M, op.headsPerKv ≤ op.nkvh ∧
    op.StoresInRange mapping (blockQLen mapping op.headsPerKv) m
  offset_pos : 0 < op.qlenOffset mapping
  pieces_pos : 0 < mapping.tileOutLoop.M
  rows : op.qlenOffset mapping = 1 ∧ mapping.tileOutLoop.M = 1 ∨
    (mapping.tileOutLoop.M - 1) * blockQLen mapping op.headsPerKv < op.qLen ∧
      op.qLen * op.nh * op.dk ≤ op.config.dramReqSize / op.config.precision

/-- `initialize_tiles` makes tiles that store the rows of their queries exactly when there is one tile
for each key head or the output is one access. -/
theorem writes_right_iff (hsizes : op.Sizes) :
    (∃ mapping tiles, op.calculateLoops = some mapping ∧
      op.initializeTiles op.initializeInstructions = some tiles ∧ op.WritesRight mapping tiles) ↔
    ∃ mapping, op.calculateLoops = some mapping ∧ op.WritesRows mapping := by
  constructor
  · rintro ⟨mapping, tiles, hmap, htiles, hright⟩
    obtain ⟨qLen, hcut⟩ := hsizes.exists_cut hmap
    obtain ⟨hoffset, hM, hrows⟩ := (hcut.writesRight_iff hsizes hmap htiles).mp hright
    refine ⟨mapping, hmap, ?_, hoffset, hM, ?_⟩
    · rw [hcut.blockQLen_eq hsizes]
      exact (hcut.exists_tiles_iff hsizes hmap).mp ⟨tiles, htiles⟩
    · rwa [hcut.blockQLen_eq hsizes]
  · rintro ⟨mapping, hmap, hmade, hoffset, hM, hrows⟩
    obtain ⟨qLen, hcut⟩ := hsizes.exists_cut hmap
    rw [hcut.blockQLen_eq hsizes] at hmade hrows
    obtain ⟨tiles, htiles⟩ := (hcut.exists_tiles_iff hsizes hmap).mpr hmade
    exact ⟨mapping, tiles, hmap, htiles,
      (hcut.writesRight_iff hsizes hmap htiles).mpr ⟨hoffset, hM, hrows⟩⟩

/-! ## Three queries -/

/-- Three queries and keys of one head, two queries in a block. -/
def threeQueries : Attention where
  id := 0
  inputs := [0, 192, 384]
  outputs := [576]
  config := {
    numCores := 1
    dramChannels := 1
    dramReqSize := 32
    coreConfig := fun _ => { coreHeight := 8, spadSize := 1, accumSpadSize := 1 } }
  qLen := 3
  seq := 3
  nh := 1
  nkvh := 1
  dk := 16

theorem threeQueries_sizes : threeQueries.Sizes := by
  constructor
  case divides => exact ⟨by decide, by decide, by decide, by decide⟩
  all_goals decide

/-- The block of the third query stores the rows of the first two. -/
theorem threeQueries_writes_first : ¬ ∀ op : Attention, op.Sizes →
    ∃ mapping tiles, op.calculateLoops = some mapping ∧
      op.initializeTiles op.initializeInstructions = some tiles ∧ op.WritesRight mapping tiles := by
  intro hall
  obtain ⟨mapping, tiles, hmap, htiles, hright⟩ := hall threeQueries threeQueries_sizes
  obtain ⟨qLen, hcut⟩ := threeQueries_sizes.exists_cut hmap
  have hvalue : threeQueries.calculateLoops = some {
      totalLoop := { N := 4, C := 16, M := 3 }
      tileInLoop := { N := 2, C := 16, M := 3 }
      tileOutLoop := { N := 2, C := 1, M := 1 } } := by decide
  obtain rfl := Option.some.inj (hvalue.symm.trans hmap)
  obtain ⟨-, -, hone | ⟨-, hall⟩⟩ :=
    (hcut.writesRight_iff threeQueries_sizes hmap htiles).mp hright
  · exact absurd hone.1 (by decide)
  · exact absurd hall (by decide)

/-- The criterion for these queries. -/
theorem writes_right_iff_threeQueries :
    (∃ mapping tiles, threeQueries.calculateLoops = some mapping ∧
      threeQueries.initializeTiles threeQueries.initializeInstructions = some tiles ∧
        threeQueries.WritesRight mapping tiles) ↔
      ∃ mapping, threeQueries.calculateLoops = some mapping ∧ threeQueries.WritesRows mapping :=
  writes_right_iff threeQueries_sizes

end Attention

end OnnxSim
