import OnnxSim.Operations.ConvChunks
import OnnxSim.Operations.ConvTiles

/-!
# What a convolution stores

The last tile of an output block stores it, pooled where a pooling is fused. Every store then divides the
sizes of the loops over the window once more, so the first store of a window has one number left and the
later ones have none (`ConvWS.Made.stored_iff_of_pooled`). From this follows which chunks the tiles write
(`ConvWS.written_iff`).
-/

namespace OnnxSim

namespace ConvWS

variable (op : ConvWS) (mapping : Mapping)

/-- The shape of the output, pooled where a pooling is fused. -/
def outputShape : List Nat := if op.poolFused then op.poolOutShape else op.convOutShape

/-- The rows of a pooling window. -/
def windowH : Nat := if op.poolFused then op.poolKernelShape.getD 0 0 else 1

/-- The columns of a pooling window. -/
def windowW : Nat := if op.poolFused then op.poolKernelShape.getD 1 0 else 1

/-- The chunk of an element of the output. -/
def outputChunk (n h w m : Nat) : AddrType :=
  op.getOperandAddr OUTPUT_OPERAND + op.makeActivationAddress n h w m op.outputShape

/-- Some store of the tiles writes the chunk. -/
def Written (tiles : List Tile) (a : AddrType) : Prop :=
  ∃ tile ∈ tiles, ∃ i ∈ tile.instructions,
    (i.opcode = .MOVOUT ∨ i.opcode = .MOVOUT_POOL) ∧ a ∈ i.srcAddrs

/-! ## What the stores reach -/

/-- A tile that is number `t` over the rows stores row `h`: the first one of a window that it has whole. -/
def RowOf (t h : Nat) : Prop :=
  t * mapping.tileInLoop.Q ≤ h ∧ op.windowH ∣ h - t * mapping.tileInLoop.Q ∧
    h + op.windowH ≤ min (t * mapping.tileInLoop.Q + mapping.tileInLoop.Q) op.key.Q

/-- A tile that is number `t` over the columns stores column `w`: the first one of a window that it has
whole. If the windows have more than one row, only the first store of a row of windows has numbers left. -/
def ColumnOf (t w : Nat) : Prop :=
  t * mapping.tileInLoop.P ≤ w ∧ op.windowW ∣ w - t * mapping.tileInLoop.P ∧
    w + op.windowW ≤ min (t * mapping.tileInLoop.P + mapping.tileInLoop.P) op.key.P ∧
      (op.windowH = 1 ∨ w = t * mapping.tileInLoop.P)

/-- A tile that is number `t` over the channels stores channel `m`. If the windows have more than one
number, only the stores of the first block of channels have numbers left. -/
def ChannelOf (t m : Nat) : Prop :=
  m < op.key.M ∧ ∃ i, i * op.loopSize < mapping.tileInLoop.M ∧
    (op.windowH = 1 ∧ op.windowW = 1 ∨ i = 0) ∧ t * mapping.tileInLoop.M + i * op.loopSize ≤ m ∧
      m < t * mapping.tileInLoop.M + i * op.loopSize + op.loopSize

def Row (h : Nat) : Prop := ∃ t < mapping.tileOutLoop.Q, op.RowOf mapping t h

def Column (w : Nat) : Prop := ∃ t < mapping.tileOutLoop.P, op.ColumnOf mapping t w

def Channel (m : Nat) : Prop := ∃ t < mapping.tileOutLoop.M, op.ChannelOf mapping t m

variable {op mapping} {tile : Tile}

/-! ## The stores of a tile -/

/-- What is left of a block of at most `b` numbers after it is divided by `b` again and again. -/
theorem lt_div_pow {b x k j : Nat} (hb : 0 < b) (hx : x ≤ b) :
    j < x / b ^ (k + 1) ↔ j = 0 ∧ x = b ∧ (b = 1 ∨ k = 0) := by
  rcases Nat.lt_or_eq_of_le hb with hb1 | rfl
  · rcases Nat.eq_zero_or_pos k with rfl | hk
    · rw [Nat.zero_add, Nat.pow_one]
      rcases Nat.lt_or_eq_of_le hx with hlt | rfl
      · rw [Nat.div_eq_of_lt hlt]
        omega
      · rw [Nat.div_self hb]
        omega
    · have hlt : x < b ^ (k + 1) := by
        refine Nat.lt_of_le_of_lt hx ?_
        calc b = b ^ 1 := (Nat.pow_one b).symm
          _ < b ^ (k + 1) := Nat.pow_lt_pow_right hb1 (by omega)
      rw [Nat.div_eq_of_lt hlt]
      omega
  · rw [Nat.one_pow, Nat.div_one]
    omega

/-- The turns of a loop in steps, with their numbers. -/
theorem mem_zipIdx_steps {step n i : Nat} {f : Nat → Nat} {x : Nat × Nat} (hstep : 0 < step) :
    (x, i) ∈ ((steps n step).map fun j => (j, f j)).zipIdx ↔
      x = (i * step, f (i * step)) ∧ i * step < n := by
  rw [List.mem_zipIdx_iff_getElem?, List.getElem?_map]
  unfold steps
  rw [List.getElem?_map]
  have hlt : i < (n + step - 1) / step ↔ i * step < n := by
    rw [Nat.lt_div_iff_mul_lt hstep]
    omega
  rcases Nat.lt_or_ge i ((n + step - 1) / step) with hi | hi
  · rw [List.getElem?_range hi]
    simp only [Option.map_some, Option.some.injEq, hlt.mp hi, and_true]
    exact eq_comm
  · rw [List.getElem?_eq_none (by simpa using hi)]
    simp only [Option.map_none, reduceCtorEq, false_iff, not_and]
    intro _ hn
    exact absurd (hlt.mpr hn) (Nat.not_lt.mpr hi)

theorem mem_dimSteps {step len offset total : Nat} {x : Nat × Nat} (hstep : 0 < step) :
    x ∈ dimSteps len offset total step ↔ step ∣ x.1 ∧ x.1 < min len (total - offset) ∧
      x.2 = min (min len (total - offset) - x.1) step := by
  rw [dimSteps_eq hstep, List.mem_map]
  constructor
  · rintro ⟨i, hi, rfl⟩
    obtain ⟨hlt, hdvd⟩ := (mem_steps hstep).mp hi
    exact ⟨hdvd, hlt, rfl⟩
  · rintro ⟨hdvd, hlt, heq⟩
    exact ⟨x.1, (mem_steps hstep).mpr ⟨hlt, hdvd⟩, Prod.ext rfl heq.symm⟩

/-- A loop reaches what the tile has of the dimension. -/
theorem exists_dimStep_iff {step len offset total y : Nat} (hstep : 0 < step) :
    (∃ x ∈ dimSteps len offset total step, ∃ i < x.2, y = offset + x.1 + i) ↔
      offset ≤ y ∧ y < min (offset + len) total := by
  have hblocks := (tiles_dimSteps hstep len offset total).exists_mem_iff (y - offset)
  constructor
  · rintro ⟨x, hx, i, hi, rfl⟩
    have hin := hblocks.mp ⟨x, hx, by unfold Blocks.Mem; omega⟩
    omega
  · rintro ⟨hle, hlt⟩
    obtain ⟨x, hx, hle', hlt'⟩ := hblocks.mpr ⟨Nat.zero_le _, by omega⟩
    exact ⟨x, hx, y - offset - x.1, by omega, by omega⟩

/-- The steps that a loop makes in full start at the multiples of a step. -/
theorem exists_fullStep_iff {step len offset total y : Nat} (hstep : 0 < step) :
    (∃ x ∈ dimSteps len offset total step, x.2 = step ∧ y = offset + x.1) ↔
      offset ≤ y ∧ step ∣ y - offset ∧ y + step ≤ min (offset + len) total := by
  constructor
  · rintro ⟨x, hx, hfull, rfl⟩
    obtain ⟨hdvd, hlt, heq⟩ := (mem_dimSteps hstep).mp hx
    rw [Nat.add_sub_cancel_left]
    exact ⟨Nat.le_add_right _ _, hdvd, by omega⟩
  · rintro ⟨hle, hdvd, hend⟩
    exact ⟨(y - offset, step), (mem_dimSteps hstep).mpr ⟨hdvd, by simp only; omega, by simp only; omega⟩,
      rfl, by simp only; omega⟩

theorem storeSteps_eq (hstep : 0 < op.loopSize) :
    op.storeSteps tile mapping = (steps (min mapping.tileInLoop.M
      (mapping.totalLoop.M - tile.M * mapping.tileInLoop.M)) op.loopSize).map fun i =>
        (i, min (mapping.totalLoop.M - tile.M * mapping.tileInLoop.M - i) op.loopSize) := by
  unfold storeSteps
  rw [filter_steps hstep]

/-- The channels of the blocks that are stored. -/
theorem exists_storeStep_iff (hstep : 0 < op.loopSize) {P : Nat → Prop} {c : Nat} :
    (∃ x ∈ (op.storeSteps tile mapping).zipIdx, P x.2 ∧
      ∃ k < x.1.2, c = tile.M * mapping.tileInLoop.M + x.1.1 + k) ↔
      c < mapping.totalLoop.M ∧ ∃ i, i * op.loopSize < mapping.tileInLoop.M ∧ P i ∧
        tile.M * mapping.tileInLoop.M + i * op.loopSize ≤ c ∧
          c < tile.M * mapping.tileInLoop.M + i * op.loopSize + op.loopSize := by
  rw [storeSteps_eq hstep]
  constructor
  · rintro ⟨⟨x, i⟩, hx, hP, k, hk, rfl⟩
    obtain ⟨rfl, hlt⟩ := (mem_zipIdx_steps hstep).mp hx
    simp only at hk ⊢
    exact ⟨by omega, i, by omega, hP, by omega, by omega⟩
  · rintro ⟨hc, i, hi, hP, hle, hlt⟩
    exact ⟨(_, i), (mem_zipIdx_steps hstep).mpr ⟨rfl, by omega⟩, hP,
      c - (tile.M * mapping.tileInLoop.M + i * op.loopSize), by simp only; omega,
      by simp only; omega⟩

/-- `q_loop` in the turn of the loops over the columns and the channels that are number `p` and `m`. -/
def qLoop (op : ConvWS) (tile : Tile) (mapping : Mapping) (q : Nat × Nat) (p m : Nat) : Nat :=
  if op.poolFused then
    q.2 / op.poolKernelShape.getD 0 0 ^ (p * (op.storeSteps tile mapping).length + m + 1)
  else q.2

/-- `p_loop` in the turn of the loop over the channels that is number `m`. -/
def pLoop (op : ConvWS) (p : Nat × Nat) (m : Nat) : Nat :=
  if op.poolFused then p.2 / op.poolKernelShape.getD 1 0 ^ (m + 1) else p.2

theorem exists_store_iff {a : AddrType} (hlast : tile.C + 1 = mapping.tileOutLoop.C ∧
    tile.R + 1 = mapping.tileOutLoop.R ∧ tile.S + 1 = mapping.tileOutLoop.S) :
    (∃ i ∈ op.stores tile mapping, a ∈ i.srcAddrs) ↔
      ∃ n < mapping.tileInLoop.N, ∃ q ∈ op.qSteps tile mapping,
        ∃ p ∈ (op.pSteps tile mapping).zipIdx, ∃ m ∈ (op.storeSteps tile mapping).zipIdx,
          ∃ i < op.qLoop tile mapping q p.2 m.2, ∃ j < op.pLoop p.1 m.2, ∃ k < m.1.2,
            a = op.outputChunk (tile.batch * mapping.tileInLoop.N + n)
              (tile.Q * mapping.tileInLoop.Q + q.1 + i) (tile.P * mapping.tileInLoop.P + p.1.1 + j)
              (tile.M * mapping.tileInLoop.M + m.1.1 + k) := by
  unfold stores
  simp only
  rw [if_pos hlast]
  constructor
  · rintro ⟨i, hi, ha⟩
    simp only [List.mem_flatMap, List.mem_map, List.mem_range] at hi
    obtain ⟨n, hn, q, hq, p, hp, m, hm, rfl⟩ := hi
    unfold movout at ha
    simp only [mem_addrSet, List.mem_flatMap, List.mem_map, List.mem_range] at ha
    obtain ⟨i, hi, j, hj, k, hk, rfl⟩ := ha
    exact ⟨n, hn, q, hq, p, hp, m, hm, i, hi, j, hj, k, hk, rfl⟩
  · rintro ⟨n, hn, q, hq, p, hp, m, hm, i, hi, j, hj, k, hk, rfl⟩
    refine ⟨_, List.mem_flatMap.mpr ⟨n, List.mem_range.mpr hn, List.mem_flatMap.mpr ⟨q, hq,
      List.mem_flatMap.mpr ⟨p, hp, List.mem_map.mpr ⟨m, hm, rfl⟩⟩⟩⟩, ?_⟩
    unfold movout
    simp only [mem_addrSet, List.mem_flatMap, List.mem_map, List.mem_range]
    exact ⟨i, hi, j, hj, k, hk, rfl⟩

/-- The number of a turn is how many steps are before it. -/
theorem mem_zipIdx_dimSteps {step len offset total i : Nat} {x : Nat × Nat} (hstep : 0 < step) :
    (x, i) ∈ (dimSteps len offset total step).zipIdx ↔
      x ∈ dimSteps len offset total step ∧ i = x.1 / step := by
  have hplace : ∀ {i}, (x, i) ∈ (dimSteps len offset total step).zipIdx → i = x.1 / step := by
    intro i hx
    rw [dimSteps_eq hstep] at hx
    obtain ⟨rfl, -⟩ := (mem_zipIdx_steps hstep).mp hx
    exact (Nat.mul_div_cancel i hstep).symm
  constructor
  · intro hx
    exact ⟨List.fst_mem_of_mem_zipIdx hx, hplace hx⟩
  · rintro ⟨hx, rfl⟩
    obtain ⟨i, hi⟩ := List.getElem?_of_mem hx
    have hmem : (x, i) ∈ (dimSteps len offset total step).zipIdx := List.mk_mem_zipIdx_iff_getElem?.mpr hi
    exact hplace hmem ▸ hmem

/-- The row, the column and the channel of a number that a store of the tile writes. -/
def Stored (op : ConvWS) (mapping : Mapping) (tile : Tile) (y w c : Nat) : Prop :=
  ∃ q ∈ op.qSteps tile mapping, ∃ p ∈ (op.pSteps tile mapping).zipIdx,
    ∃ m ∈ (op.storeSteps tile mapping).zipIdx, ∃ i < op.qLoop tile mapping q p.2 m.2,
      ∃ j < op.pLoop p.1 m.2, ∃ k < m.1.2, y = tile.Q * mapping.tileInLoop.Q + q.1 + i ∧
        w = tile.P * mapping.tileInLoop.P + p.1.1 + j ∧ c = tile.M * mapping.tileInLoop.M + m.1.1 + k

section Pooled

variable {is : List Instruction} (h : op.Made mapping tile is) (hpool : op.poolFused = true)
include h hpool

omit h in
theorem windowH_of_pooled : op.windowH = op.qLoopSize := by
  simp [windowH, qLoopSize, hpool]

omit h in
theorem windowW_of_pooled : op.windowW = op.pLoopSize := by
  simp [windowW, pLoopSize, hpool]

theorem Made.lt_qLoop_iff {q : Nat × Nat} {p m i : Nat} (hq : q ∈ op.qSteps tile mapping) :
    i < op.qLoop tile mapping q p m ↔ i = 0 ∧ q.2 = op.windowH ∧
      (op.windowH = 1 ∨ p * (op.storeSteps tile mapping).length + m = 0) := by
  have hle := ((mem_dimSteps h.qLoopSize_pos).mp hq).2.2
  have hsize : op.poolKernelShape.getD 0 0 = op.qLoopSize := by simp [qLoopSize, hpool]
  unfold qLoop
  rw [if_pos hpool, hsize, lt_div_pow h.qLoopSize_pos (by omega), windowH_of_pooled hpool]

theorem Made.lt_pLoop_iff {p : Nat × Nat} {m j : Nat} (hp : p ∈ op.pSteps tile mapping) :
    j < op.pLoop p m ↔ j = 0 ∧ p.2 = op.windowW ∧ (op.windowW = 1 ∨ m = 0) := by
  have hle := ((mem_dimSteps h.pLoopSize_pos).mp hp).2.2
  have hsize : op.poolKernelShape.getD 1 0 = op.pLoopSize := by simp [pLoopSize, hpool]
  unfold pLoop
  rw [if_pos hpool, hsize, lt_div_pow h.pLoopSize_pos (by omega), windowW_of_pooled hpool]

theorem Made.rowOf_iff (htotal : mapping.totalLoop = op.key.toLoopCounts) {y : Nat} :
    op.RowOf mapping tile.Q y ↔ ∃ q ∈ op.qSteps tile mapping, q.2 = op.windowH ∧
      y = tile.Q * mapping.tileInLoop.Q + q.1 := by
  unfold RowOf qSteps
  rw [windowH_of_pooled hpool, exists_fullStep_iff h.qLoopSize_pos, htotal]

theorem Made.columnOf_iff (htotal : mapping.totalLoop = op.key.toLoopCounts) {w : Nat} :
    op.ColumnOf mapping tile.P w ↔ ∃ p ∈ op.pSteps tile mapping,
      (op.windowH = 1 ∨ p.1 / op.pLoopSize = 0) ∧ p.2 = op.windowW ∧
        w = tile.P * mapping.tileInLoop.P + p.1 := by
  have hfull := @exists_fullStep_iff _ mapping.tileInLoop.P (tile.P * mapping.tileInLoop.P) op.key.P w
    h.pLoopSize_pos
  unfold ColumnOf pSteps
  rw [windowW_of_pooled hpool, htotal]
  constructor
  · rintro ⟨hle, hdvd, hend, hfirst⟩
    obtain ⟨p, hp, hp2, rfl⟩ := hfull.mpr ⟨hle, hdvd, hend⟩
    refine ⟨p, hp, hfirst.imp_right fun heq => ?_, hp2, rfl⟩
    rw [show p.1 = 0 by omega, Nat.zero_div]
  · rintro ⟨p, hp, hfirst, hp2, rfl⟩
    obtain ⟨hle, hdvd, hend⟩ := hfull.mp ⟨p, hp, hp2, rfl⟩
    refine ⟨hle, hdvd, hend, hfirst.imp_right fun heq => ?_⟩
    rw [Nat.add_sub_cancel_left] at hdvd
    have hzero := Nat.eq_mul_of_div_eq_right hdvd heq
    omega

end Pooled

theorem Made.channelOf_iff {is : List Instruction} (h : op.Made mapping tile is)
    (htotal : mapping.totalLoop = op.key.toLoopCounts) {c : Nat} :
    op.ChannelOf mapping tile.M c ↔ ∃ m ∈ (op.storeSteps tile mapping).zipIdx,
      (op.windowH = 1 ∧ op.windowW = 1 ∨ m.2 = 0) ∧
        ∃ k < m.1.2, c = tile.M * mapping.tileInLoop.M + m.1.1 + k := by
  rw [exists_storeStep_iff h.loopSize_pos (P := fun i => op.windowH = 1 ∧ op.windowW = 1 ∨ i = 0),
    htotal]
  rfl

/-- Of a window that is whole the first store has one number left, and later ones have none. -/
theorem Made.stored_iff_of_pooled {is : List Instruction} (h : op.Made mapping tile is)
    (htotal : mapping.totalLoop = op.key.toLoopCounts) (hpool : op.poolFused = true) {y w c : Nat} :
    op.Stored mapping tile y w c ↔ op.RowOf mapping tile.Q y ∧ op.ColumnOf mapping tile.P w ∧
      op.ChannelOf mapping tile.M c := by
  rw [h.rowOf_iff hpool htotal, h.columnOf_iff hpool htotal, h.channelOf_iff htotal]
  constructor
  · rintro ⟨q, hq, ⟨p, pi⟩, hpi, ⟨m, mi⟩, hm, i, hi, j, hj, k, hk, rfl, rfl, rfl⟩
    obtain ⟨hp, rfl⟩ := (mem_zipIdx_dimSteps h.pLoopSize_pos).mp hpi
    obtain ⟨rfl, hq2, hqone⟩ := (h.lt_qLoop_iff hpool hq).mp hi
    obtain ⟨rfl, hp2, hpone⟩ := (h.lt_pLoop_iff hpool hp).mp hj
    -- both numbers are zero in the turn that has something left
    have hlen := List.length_pos_of_mem (List.fst_mem_of_mem_zipIdx hm)
    have hturn : p.1 / op.pLoopSize * (op.storeSteps tile mapping).length + mi = 0 →
        p.1 / op.pLoopSize = 0 ∧ mi = 0 := by
      intro hzero
      obtain ⟨hmul, hmi⟩ := Nat.add_eq_zero_iff.mp hzero
      exact ⟨(Nat.mul_eq_zero.mp hmul).resolve_right hlen.ne', hmi⟩
    refine ⟨⟨q, hq, hq2, rfl⟩, ⟨p, hp, ?_, hp2, rfl⟩, (m, mi), hm, ?_, k, hk, rfl⟩
    · exact hqone.imp_right fun hzero => (hturn hzero).1
    · obtain hone | hzero := hqone
      · exact hpone.imp_left fun hone' => ⟨hone, hone'⟩
      · exact .inr (hturn hzero).2
  · rintro ⟨⟨q, hq, hq2, rfl⟩, ⟨p, hp, hfirst, hp2, rfl⟩, ⟨m, mi⟩, hm, hone, k, hk, rfl⟩
    refine ⟨q, hq, (p, p.1 / op.pLoopSize), (mem_zipIdx_dimSteps h.pLoopSize_pos).mpr ⟨hp, rfl⟩,
      (m, mi), hm, 0, (h.lt_qLoop_iff hpool hq).mpr ⟨rfl, hq2, ?_⟩, 0,
      (h.lt_pLoop_iff hpool hp).mpr ⟨rfl, hp2, hone.imp_left And.right⟩, k, hk, rfl, rfl, rfl⟩
    obtain ⟨hone, -⟩ | hmi := hone
    · exact .inl hone
    · refine hfirst.imp_right fun hpi => ?_
      simp only at hmi
      simp [hpi, hmi]

/-- Without a pooling every store writes its block. -/
theorem Made.stored_iff_of_not_pooled {is : List Instruction} (h : op.Made mapping tile is)
    (htotal : mapping.totalLoop = op.key.toLoopCounts) (hpool : op.poolFused = false) {y w c : Nat} :
    op.Stored mapping tile y w c ↔ op.RowOf mapping tile.Q y ∧ op.ColumnOf mapping tile.P w ∧
      op.ChannelOf mapping tile.M c := by
  have hH : op.windowH = 1 := by simp [windowH, hpool]
  have hW : op.windowW = 1 := by simp [windowW, hpool]
  have hrow : op.RowOf mapping tile.Q y ↔ ∃ q ∈ op.qSteps tile mapping, ∃ i < q.2,
      y = tile.Q * mapping.tileInLoop.Q + q.1 + i := by
    unfold qSteps
    rw [exists_dimStep_iff h.qLoopSize_pos, htotal]
    unfold RowOf
    rw [hH]
    simp only [Nat.one_dvd, true_and]
    rfl
  have hcolumn : op.ColumnOf mapping tile.P w ↔ ∃ p ∈ op.pSteps tile mapping, ∃ j < p.2,
      w = tile.P * mapping.tileInLoop.P + p.1 + j := by
    unfold pSteps
    rw [exists_dimStep_iff h.pLoopSize_pos, htotal]
    unfold ColumnOf
    rw [hH, hW]
    simp only [Nat.one_dvd, true_and, true_or, and_true]
    rfl
  have hq : ∀ (q : Nat × Nat) p m, op.qLoop tile mapping q p m = q.2 := by simp [qLoop, hpool]
  have hp : ∀ (p : Nat × Nat) m, op.pLoop p m = p.2 := by simp [pLoop, hpool]
  rw [hrow, hcolumn, h.channelOf_iff htotal]
  unfold Stored
  simp only [hq, hp]
  constructor
  · rintro ⟨q, hq, p, hp, m, hm, i, hi, j, hj, k, hk, rfl, rfl, rfl⟩
    exact ⟨⟨q, hq, i, hi, rfl⟩, ⟨p.1, List.fst_mem_of_mem_zipIdx hp, j, hj, rfl⟩, m, hm,
      .inl ⟨hH, hW⟩, k, hk, rfl⟩
  · rintro ⟨⟨q, hq, i, hi, rfl⟩, ⟨p, hp, j, hj, rfl⟩, m, hm, -, k, hk, rfl⟩
    exact ⟨q, hq, (p, p.1 / op.pLoopSize), (mem_zipIdx_dimSteps h.pLoopSize_pos).mpr ⟨hp, rfl⟩, m, hm,
      i, hi, j, hj, k, hk, rfl, rfl, rfl⟩

theorem Made.stored_iff {is : List Instruction} (h : op.Made mapping tile is)
    (htotal : mapping.totalLoop = op.key.toLoopCounts) {y w c : Nat} :
    op.Stored mapping tile y w c ↔ op.RowOf mapping tile.Q y ∧ op.ColumnOf mapping tile.P w ∧
      op.ChannelOf mapping tile.M c := by
  cases hpool : op.poolFused with
  | false => exact h.stored_iff_of_not_pooled htotal hpool
  | true => exact h.stored_iff_of_pooled htotal hpool

theorem last_of_mem_stores {i : Instruction} (hi : i ∈ op.stores tile mapping) :
    tile.C + 1 = mapping.tileOutLoop.C ∧ tile.R + 1 = mapping.tileOutLoop.R ∧
      tile.S + 1 = mapping.tileOutLoop.S := by
  by_contra hlast
  unfold stores at hi
  simp only at hi
  rw [if_neg hlast] at hi
  cases hi

/-! ## The stores of all tiles -/

theorem Made.exists_movout_iff {is : List Instruction} (h : op.Made mapping tile is)
    {a : AddrType} :
    (∃ i ∈ is, (i.opcode = .MOVOUT ∨ i.opcode = .MOVOUT_POOL) ∧ a ∈ i.srcAddrs) ↔
      ∃ i ∈ op.stores tile mapping, a ∈ i.srcAddrs := by
  constructor
  · rintro ⟨i, hi, hopcode, ha⟩
    rw [h.sections] at hi
    rcases List.mem_append.mp hi with hi | hi
    · rcases List.mem_append.mp hi with hi | hi
      · rcases List.mem_cons.mp hi with rfl | hi
        · simp [activationMovin] at hopcode
        · obtain ⟨it, -, rfl⟩ := List.mem_map.mp hi
          simp [weightMovin] at hopcode
      · obtain ⟨it, -, hi⟩ := List.mem_flatMap.mp hi
        obtain hcompute | hcompute := opcode_of_computes hi <;> simp [hcompute] at hopcode
    · exact ⟨i, hi, ha⟩
  · rintro ⟨i, hi, ha⟩
    exact ⟨i, by rw [h.sections]; exact List.mem_append_right _ hi, opcode_of_stores hi, ha⟩

variable (hcuts : Cuts op.key mapping) {tiles : List Tile}
  (htiles : op.initializeTiles mapping = some tiles)
include hcuts htiles

/-- What the stores of all tiles write. -/
theorem written_iff {a : AddrType} :
    Written tiles a ↔ ∃ n < mapping.tileOutLoop.N * mapping.tileInLoop.N, ∃ h, op.Row mapping h ∧
      ∃ w, op.Column mapping w ∧ ∃ m, op.Channel mapping m ∧ a = op.outputChunk n h w m := by
  have hall := tileOf_of_initializeTiles hcuts htiles
  obtain ⟨houtN, houtC, -, houtS, houtR, -⟩ := turns_of_initializeTiles htiles
  have hin := hcuts.N.inner_pos
  constructor
  · rintro ⟨tile, htile, hwrites⟩
    obtain ⟨loop, hloop, hof⟩ := Loops.exists_of_forall₂_right hall htile
    have hmade := hof.made hcuts hloop
    obtain ⟨i, hi, ha⟩ := hmade.exists_movout_iff.mp hwrites
    obtain ⟨n, hn, q, hq, p, hp, m, hm, i, hi, j, hj, k, hk, rfl⟩ :=
      (exists_store_iff (last_of_mem_stores hi)).mp ⟨i, hi, ha⟩
    obtain ⟨hrow, hcolumn, hchannel⟩ := (hmade.stored_iff hcuts.total).mp
      ⟨q, hq, p, hp, m, hm, i, hi, j, hj, k, hk, rfl, rfl, rfl⟩
    obtain ⟨⟨hN, hP, hQ, hM⟩, -⟩ := mem_tileLoops.mp hloop
    refine ⟨_, ?_, _, ⟨tile.Q, hof.Q_eq ▸ hQ, hrow⟩, _, ⟨tile.P, hof.P_eq ▸ hP, hcolumn⟩, _,
      ⟨tile.M, hof.M_eq ▸ hM, hchannel⟩, rfl⟩
    have hmul : (tile.batch + 1) * mapping.tileInLoop.N ≤
        mapping.tileOutLoop.N * mapping.tileInLoop.N :=
      Nat.mul_le_mul_right _ (hof.batch_eq ▸ hN)
    rw [Nat.succ_mul] at hmul
    omega
  · rintro ⟨n, hn, y, ⟨tQ, htQ, hrow⟩, w, ⟨tP, htP, hcolumn⟩, c, ⟨tM, htM, hchannel⟩, rfl⟩
    have hloop : ((n / mapping.tileInLoop.N, tP, tQ, tM), mapping.tileOutLoop.S - 1,
        mapping.tileOutLoop.R - 1, mapping.tileOutLoop.C - 1) ∈ tileLoops mapping :=
      mem_tileLoops.mpr ⟨⟨(Nat.div_lt_iff_lt_mul hin).mpr hn, htP, htQ, htM⟩, by omega, by omega,
        by omega⟩
    obtain ⟨tile, htile, hof⟩ := Loops.exists_of_forall₂ hall hloop
    have hmade := hof.made hcuts hloop
    have hlast : tile.C + 1 = mapping.tileOutLoop.C ∧ tile.R + 1 = mapping.tileOutLoop.R ∧
        tile.S + 1 = mapping.tileOutLoop.S := by
      rw [hof.C_eq, hof.R_eq, hof.S_eq]
      exact ⟨Nat.sub_add_cancel houtC, Nat.sub_add_cancel houtR, Nat.sub_add_cancel houtS⟩
    have hstored : op.Stored mapping tile y w c := (hmade.stored_iff hcuts.total).mpr
      ⟨hof.Q_eq ▸ hrow, hof.P_eq ▸ hcolumn, hof.M_eq ▸ hchannel⟩
    obtain ⟨q, hq, p, hp, m, hm, i, hi, j, hj, k, hk, rfl, rfl, rfl⟩ := hstored
    refine ⟨tile, htile, hmade.exists_movout_iff.mpr ((exists_store_iff hlast).mpr
      ⟨n % mapping.tileInLoop.N, Nat.mod_lt _ hin, q, hq, p, hp, m, hm, i, hi, j, hj, k, hk, ?_⟩)⟩
    rw [hof.batch_eq, Nat.div_add_mod']

end ConvWS

end OnnxSim
