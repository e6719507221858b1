import OnnxSim.Operations.Elementwise

/-!
# Binary operations

`BinaryOp` of `BinaryOp.h` and `BinaryOp.cc`. A tile fetches both operands, of which the second may be a
single value for all tiles, and computes into a third region. Each region gets a third of the
scratchpad, but a tile has only one of its two buffers, the half of it. So the tiles fit exactly if the
first one, which is the largest, does (`BinaryOp.tiles_fit_iff`).
-/

namespace OnnxSim

structure BinaryOp extends ElementwiseNode where
  optype : String
  inputA : Operand
  inputB : Operand
  /-- The inputs that the operation does not read. -/
  rest : List Operand := []

namespace BinaryOp

/-- `BinaryOp::resolve_opcode`. -/
def resolveOpcode (optype : String) : Opcode :=
  if optype = "Add" then .ADD
  else if optype = "Sub" then .ADD
  else if optype = "Mul" then .MUL
  else if optype = "Div" then .DIV
  else if optype = "Equal" then .COMP
  else if optype = "Where" then .COMP
  else if optype = "Greater" then .COMP
  else .ADD

open ElementwiseNode

variable (op : BinaryOp)

def dkA : Nat := flatten op.inputA.dims

def dkB : Nat := flatten op.inputB.dims

/-- `_broadcast_b`. -/
def broadcastB : Bool := op.dkB < op.dkA

/-- `_dk`. -/
def dk : Nat := max op.dkA op.dkB

def outputShape : List Nat := if op.dkA ≥ op.dkB then op.inputA.dims else op.inputB.dims

/-- `usable`, a third of the scratchpad. -/
def usable : Nat := wrap ((op.config.coreConfig op.targetCore).spadSize * 1024) / 3

/-- `_tokens_per_tile`. -/
def tokensPerTile : Nat := op.tokensFor op.usable op.dk

def output : Operand := op.outputOf op.outputShape

def node : Node := op.nodeOf (op.inputA :: op.inputB :: op.rest) op.found.isNone

def dramA : AddrType := op.node.getOperandAddr INPUT_OPERAND

def dramB : AddrType := op.node.getOperandAddr (INPUT_OPERAND + 1)

def dramOut : AddrType := op.node.getOperandAddr OUTPUT_OPERAND

def sramB : AddrType := SPAD_BASE + word (op.tokensPerTile * op.config.precision)

def sramOut : AddrType := op.sramB + word (op.tokensPerTile * op.config.precision)

/-- The chunks of the second operand: a single one if it is broadcast. -/
def addrsB (offset : Nat) (offs : List Nat) : List AddrType :=
  if op.broadcastB then [op.dramB]
  else chunkAddrs op.dramB (offset * op.config.precision) offs

/-- MOVIN A -/
def loadA (offset : Nat) (offs : List Nat) : Instruction :=
  movin SPAD_BASE (chunkAddrs op.dramA (offset * op.config.precision) offs) INPUT_OPERAND

/-- MOVIN B -/
def loadB (offset : Nat) (offs : List Nat) : Instruction :=
  movin op.sramB (op.addrsB offset offs) (INPUT_OPERAND + 1)

def compute (tokens : Nat) : Instruction where
  opcode := resolveOpcode op.optype
  destAddr := op.sramOut
  size := wrap (tokens * op.config.precision) / op.config.dramReqSize
  computeSize := wrap (tokens * op.config.precision)
  srcAddrs := [SPAD_BASE, op.sramB]

def store (offset : Nat) (offs : List Nat) : Instruction :=
  movout op.sramOut (chunkAddrs op.dramOut (offset * op.config.precision) offs)

/-- The instructions of a tile, for the offsets of its chunks. -/
def program (offset tokens : Nat) (offs : List Nat) : List Instruction :=
  [op.loadA offset offs, op.loadB offset offs] ++ [op.compute tokens] ++ [op.store offset offs]

/-- `BinaryOp::initialize_instructions`. -/
def initializeInstructions (offset tokens : Nat) : Option (List Instruction) :=
  if op.config.dramReqSize = 0 then none
  else do
    let offs ← countUp (wrap (tokens * op.config.precision)) op.config.dramReqSize
    some (op.program offset tokens offs)

/-- `BinaryOp::initialize_tiles`, after the division by the precision in `calculate_loops`. -/
def initializeTiles : Option (List Tile) :=
  if op.config.precision = 0 then none
  else op.tileLoop op.dk op.tokensPerTile op.initializeInstructions

theorem resolveOpcode_computes (optype : String) :
    resolveOpcode optype ≠ .MOVIN ∧ resolveOpcode optype ≠ .MOVOUT ∧
      resolveOpcode optype ≠ .MOVOUT_POOL := by
  unfold resolveOpcode
  repeat' split
  all_goals decide

/-- `remain`. -/
def remain (o : Nat) : Nat := min (op.dk - o) op.tokensPerTile

/-- The offsets of the chunks in a tile. -/
def chunkOffs (tokens : Nat) : List Nat :=
  steps (wrap (tokens * op.config.precision)) op.config.dramReqSize

/-- The tile for the tokens from an offset on. -/
def tileAt (o : Nat) : Tile := op.tileOf (op.program o (op.remain o) (op.chunkOffs (op.remain o)))

/-! ## Room for a tile -/

/-- The chunks that the loads of a tile and its compute instruction allocate. -/
def chunks (t : Tile) : Nat :=
  ((t.instructions.filter fun i => i.opcode ≠ .MOVOUT).map (·.size)).sum

/-- The tile has room in a buffer of the scratchpad: it does not exceed the capacity, and the core
exits neither at the issue of a load nor at an allocation. -/
structure Fits (t : Tile) : Prop where
  capacity : chunks t * op.config.dramReqSize ≤ (Sram.create op.config false op.targetCore).size
  allocates : ∀ b,
    ((Sram.create op.config false op.targetCore).allocateAll b t.instructions).isSome

/-- The largest number of bytes for a tile with room in half of the scratchpad. Its chunks count three
times, but the last one, if it is not full, only twice; a single value takes one chunk. -/
def room : Nat :=
  let chunks := op.sramCapacity / op.config.dramReqSize
  let step := op.config.dramReqSize
  if op.broadcastB then (chunks - 1) / 2 * step + (chunks - 1) % 2 * (step - 1)
  else chunks / 3 * step + chunks % 3 / 2 * (step - 1)

/-- The bytes of the first tile. -/
def tileBytes : Nat := min op.dk (max 1 (op.usable / op.config.precision)) * op.config.precision

/-- The chunks that a tile of so many bytes needs. -/
def chunksOf (bytes : Nat) : Nat :=
  Counters.turns bytes op.config.dramReqSize +
    (if op.broadcastB then 1 else Counters.turns bytes op.config.dramReqSize) +
    bytes / op.config.dramReqSize

theorem chunksOf_mono {b c : Nat} (h : b ≤ c) : op.chunksOf b ≤ op.chunksOf c := by
  have hturns : Counters.turns b op.config.dramReqSize ≤ Counters.turns c op.config.dramReqSize :=
    Counters.turns_mono h
  have hdiv : b / op.config.dramReqSize ≤ c / op.config.dramReqSize := Nat.div_le_div_right h
  unfold chunksOf
  split <;> omega

theorem le_steps_iff {b e k s : Nat} (he : 0 < e) (hs : s ≤ 1) :
    b ≤ k * e + s * (e - 1) ↔ b / e < k ∨ b / e = k ∧ (b % e = 0 ∨ s = 1) := by
  have hsum := Nat.div_add_mod' b e
  have hmod := Nat.mod_lt b he
  have hfill : s * (e - 1) = if s = 1 then e - 1 else 0 := by
    rcases Nat.le_one_iff_eq_zero_or_eq_one.mp hs with rfl | rfl <;> simp
  rw [hfill]
  rcases Nat.lt_trichotomy (b / e) k with hlt | heq | hgt
  · have hmul := Nat.mul_le_mul_right e hlt
    rw [Nat.succ_mul] at hmul
    refine iff_of_true ?_ (.inl hlt)
    omega
  · rw [heq] at hsum
    split <;> omega
  · have hmul := Nat.mul_le_mul_right e hgt
    rw [Nat.succ_mul] at hmul
    refine iff_of_false ?_ (by omega)
    split <;> omega

theorem chunksOf_le_iff {bytes : Nat} (hreq : 0 < op.config.dramReqSize) (hbytes : 0 < bytes) :
    op.chunksOf bytes * op.config.dramReqSize ≤ op.sramCapacity ↔ bytes ≤ op.room := by
  have hpos : 0 < bytes / op.config.dramReqSize ∨ 0 < bytes % op.config.dramReqSize := by
    have hsum := Nat.div_add_mod' bytes op.config.dramReqSize
    refine or_iff_not_imp_left.mpr fun hzero => ?_
    rw [Nat.eq_zero_of_not_pos hzero, Nat.zero_mul] at hsum
    omega
  rw [← Nat.le_div_iff_mul_le hreq]
  unfold chunksOf room
  rw [Counters.turns_eq_div_add hreq]
  dsimp only
  rw [apply_ite (bytes ≤ ·), le_steps_iff hreq (by omega), le_steps_iff hreq (by omega)]
  generalize bytes / op.config.dramReqSize = q at *
  generalize bytes % op.config.dramReqSize = r at *
  generalize op.sramCapacity / op.config.dramReqSize = m
  split <;> omega

variable {op}

theorem chunks_eq {offset tokens : Nat} {offs : List Nat} {t : Tile}
    (h : t.instructions = op.program offset tokens offs) : chunks t =
      (op.loadA offset offs).size + (op.loadB offset offs).size + (op.compute tokens).size := by
  have hopcode := (resolveOpcode_computes op.optype).2.1
  unfold chunks
  rw [h, program]
  simp [loadA, loadB, compute, store, movin, movout, hopcode, Nat.add_assoc]

/-- A tile has the chunks of its bytes. -/
theorem chunks_tileAt (hreq : 0 < op.config.dramReqSize) (o : Nat) :
    chunks (op.tileAt o) = op.chunksOf (wrap (op.remain o * op.config.precision)) := by
  have hbound : wrap (op.remain o * op.config.precision) ≤ 2 ^ 32 :=
    Nat.le_of_lt (Nat.mod_lt _ (by decide))
  have hlength : ∀ base, (chunkAddrs base (o * op.config.precision)
      (steps (wrap (op.remain o * op.config.precision)) op.config.dramReqSize)).length = _ :=
    fun _ => length_chunkAddrs hreq hbound
  rw [chunks_eq (t := op.tileAt o) rfl]
  unfold chunksOf loadA loadB compute movin addrsB chunkOffs
  dsimp only
  rw [hlength]
  split
  · rfl
  · rw [hlength]

/-- The bytes of a tile are a positive 32-bit number. -/
theorem tileBytes_lt (hp : op.config.precision < 2 ^ 32) : op.tileBytes < 2 ^ 32 := by
  have husable : op.usable < 2 ^ 32 :=
    Nat.lt_of_le_of_lt (Nat.div_le_self _ 3) (Nat.mod_lt _ (by decide))
  have hfloor := Nat.div_mul_le_self op.usable op.config.precision
  have hmul := Nat.mul_le_mul_right op.config.precision
    (Nat.min_le_right op.dk (max 1 (op.usable / op.config.precision)))
  unfold tileBytes
  rcases Nat.le_total (op.usable / op.config.precision) 1 with hle | hle
  · rw [Nat.max_eq_left hle] at hmul ⊢
    omega
  · rw [Nat.max_eq_right hle] at hmul ⊢
    omega

theorem tokensPerTile_mul : op.tokensPerTile * op.config.precision = op.tileBytes := by
  unfold tokensPerTile tileBytes
  rw [tokensFor_eq]

/-- The three regions of a tile start at different addresses. -/
theorem regions_ne (hpos : 0 < op.tileBytes) (hlt : op.tileBytes < 2 ^ 32) :
    op.sramB ≠ SPAD_BASE ∧ op.sramOut ≠ SPAD_BASE ∧ op.sramOut ≠ op.sramB := by
  have hB : op.sramB = SPAD_BASE + BitVec.ofNat 64 op.tileBytes := by
    unfold sramB word
    rw [tokensPerTile_mul, Nat.mod_eq_of_lt hlt]
  have hOut : op.sramOut = SPAD_BASE + BitVec.ofNat 64 (op.tileBytes + op.tileBytes) := by
    unfold sramOut sramB word
    rw [tokensPerTile_mul, Nat.mod_eq_of_lt hlt, add_assoc, ← BitVec.ofNat_add]
  have hbase : SPAD_BASE = SPAD_BASE + BitVec.ofNat 64 0 := rfl
  refine ⟨fun heq => ?_, fun heq => ?_, fun heq => ?_⟩
  · rw [hB, hbase] at heq
    have hsame := Spans.add_ofNat_inj (by omega) (by omega) heq
    omega
  · rw [hOut, hbase] at heq
    have hsame := Spans.add_ofNat_inj (by omega) (by omega) heq
    omega
  · rw [hOut, hB] at heq
    have hsame := Spans.add_ofNat_inj (by omega) (by omega) heq
    omega

/-- A buffer that has room for the chunks of a tile grants the three regions one after the other. -/
theorem allocateAll_isSome {offset tokens : Nat} {offs : List Nat} {t : Tile} (b : Nat)
    (hpos : 0 < op.tileBytes) (hlt : op.tileBytes < 2 ^ 32)
    (h : t.instructions = op.program offset tokens offs)
    (hroom : chunks t * op.config.dramReqSize ≤ op.sramCapacity) :
    ((Sram.create op.config false op.targetCore).allocateAll b t.instructions).isSome := by
  obtain ⟨hB, hOutA, hOutB⟩ := regions_ne hpos hlt
  obtain ⟨-, hstore, hpool⟩ := resolveOpcode_computes op.optype
  have hgranted : ∃ s, (Sram.create op.config false op.targetCore).allocateAll b
      [op.loadA offset offs, op.loadB offset offs, op.compute tokens] = some s := by
    apply Sram.allocateAll_isSome
    · show [SPAD_BASE, op.sramB, op.sramOut].Nodup
      simp [hB.symm, hOutA.symm, hOutB.symm]
    · simp [loadA, loadB, compute, movin, hstore, hpool]
    · exact fun i _ => rfl
    · rw [chunks_eq h] at hroom
      show (0 + ([_, _, _] : List Nat).sum) * op.config.dramReqSize ≤ op.sramCapacity
      rw [Nat.zero_add, List.sum_cons, List.sum_cons, List.sum_singleton, ← Nat.add_assoc]
      exact hroom
  obtain ⟨s, hs⟩ := hgranted
  rw [h, program, Sram.allocateAll_append]
  refine Option.isSome_iff_exists.mpr ⟨s, ?_⟩
  have hloads : [op.loadA offset offs, op.loadB offset offs] ++ [op.compute tokens] =
      [op.loadA offset offs, op.loadB offset offs, op.compute tokens] := rfl
  rw [hloads, hs]
  rfl

/-- The tiles are those of the offsets of the loop. -/
theorem mem_tiles {tiles : List Tile} {k : Nat} (hreq : op.config.dramReqSize = 2 ^ k) (hk : k < 32)
    (h : op.initializeTiles = some tiles) : ∃ offsets, countUp op.dk op.tokensPerTile = some offsets ∧
      ∀ t, t ∈ tiles ↔ ∃ o ∈ offsets, t = op.tileAt o := by
  unfold initializeTiles at h
  split at h
  · cases h
  obtain ⟨offsets, hoffsets, hall, hmem⟩ := op.mem_of_tileLoop h
  refine ⟨offsets, hoffsets, fun t => (hmem t).trans (exists_congr fun o => and_congr_right fun ho => ?_)⟩
  have hprogram : ∀ is, op.initializeInstructions o (op.remain o) = some is →
      is = op.program o (op.remain o) (op.chunkOffs (op.remain o)) := by
    intro is his
    unfold initializeInstructions at his
    split at his
    · cases his
    · obtain ⟨offs, hoffs, his⟩ := Option.bind_eq_some_iff.mp his
      rw [hreq] at hoffs
      have hsteps := countUp_of_two_pow hk.le hoffs
      rw [← hreq] at hsteps
      obtain rfl := Option.some.inj his
      rw [hsteps]
      rfl
  constructor
  · rintro ⟨is, his, rfl⟩
    rw [hprogram is his]
    rfl
  · rintro rfl
    obtain ⟨is, his⟩ := hall o ho
    refine ⟨is, his, ?_⟩
    rw [hprogram is his]
    rfl

/-- The tiles fit exactly if there are none, or the bytes of the first one do not exceed the room. -/
theorem tiles_fit_iff {tiles : List Tile} {k : Nat} (hreq : op.config.dramReqSize = 2 ^ k) (hk : k < 32)
    (hp : op.config.precision < 2 ^ 32) (h : op.initializeTiles = some tiles) :
    (∀ t ∈ tiles, op.Fits t) ↔ op.dk = 0 ∨ op.tileBytes ≤ op.room := by
  have hreqpos : 0 < op.config.dramReqSize := by
    rw [hreq]
    exact Nat.two_pow_pos k
  obtain ⟨offsets, hoffsets, hmem⟩ := mem_tiles hreq hk h
  rcases Nat.eq_zero_or_pos op.dk with hzero | hpos
  · rw [hzero, countUp_zero] at hoffsets
    obtain rfl := Option.some.inj hoffsets
    refine iff_of_true (fun t ht => ?_) (.inl hzero)
    obtain ⟨o, ho, -⟩ := (hmem t).mp ht
    cases ho
  have hprecision : 0 < op.config.precision := by
    refine Nat.pos_of_ne_zero fun hnone => ?_
    unfold initializeTiles at h
    rw [if_pos hnone] at h
    cases h
  have hlt := tileBytes_lt hp
  have htile : 0 < op.tileBytes := by
    unfold tileBytes
    exact Nat.mul_pos (by omega) hprecision
  rw [← op.chunksOf_le_iff hreqpos htile, or_iff_right hpos.ne']
  constructor
  · intro hall
    have hfirst := (hall _ ((hmem _).mpr ⟨0, zero_mem_countUp hoffsets hpos, rfl⟩)).capacity
    have hwhole : op.remain 0 = op.tokensPerTile := by
      unfold remain tokensPerTile
      rw [tokensFor_eq]
      omega
    rw [chunks_tileAt hreqpos, hwhole, tokensPerTile_mul, wrap_of_lt hlt] at hfirst
    exact hfirst
  · intro hroom t ht
    obtain ⟨o, -, rfl⟩ := (hmem t).mp ht
    have hbytes : wrap (op.remain o * op.config.precision) ≤ op.tileBytes := by
      rw [← tokensPerTile_mul]
      exact (Nat.mod_le _ _).trans (Nat.mul_le_mul_right _ (Nat.min_le_right _ _))
    have hchunks : chunks (op.tileAt o) * op.config.dramReqSize ≤ op.sramCapacity := by
      rw [chunks_tileAt hreqpos]
      exact (Nat.mul_le_mul_right _ (op.chunksOf_mono hbytes)).trans hroom
    exact ⟨hchunks, fun b => allocateAll_isSome b htile hlt rfl hchunks⟩

/-- An addition of vectors, with a scratchpad of one KiB. -/
def addVectors (n : Nat) : BinaryOp where
  config := { numCores := 1, coreConfig := fun _ => { spadSize := 1 }, dramChannels := 1, dramReqSize := 32 }
  id := 0
  outputAddress := 2048
  optype := "Add"
  inputA := .create { numCores := 1, dramChannels := 1, dramReqSize := 32 } [n] 0
  inputB := .create { numCores := 1, dramChannels := 1, dramReqSize := 32 } [n] 1024

/-- Vectors of 340 bytes make one tile, whose 32 chunks do not fit in half of the scratchpad. -/
theorem addVectors_not_fits : ¬ ∀ (op : BinaryOp) (tiles : List Tile) (k : Nat),
    op.config.dramReqSize = 2 ^ k → k < 32 → op.config.precision < 2 ^ 32 →
      op.initializeTiles = some tiles → ∀ t ∈ tiles, op.Fits t := by
  intro hall
  have hfits := hall (addVectors 85) [(addVectors 85).tileAt 0] 5 rfl (by decide) (by decide) rfl _
    List.mem_cons_self
  have hcapacity := hfits.capacity
  rw [chunks_tileAt (by decide)] at hcapacity
  revert hcapacity
  decide

theorem tiles_fit_iff_addVectors : (∀ t ∈ [(addVectors 32).tileAt 0], (addVectors 32).Fits t) ↔
    (addVectors 32).dk = 0 ∨ (addVectors 32).tileBytes ≤ (addVectors 32).room :=
  tiles_fit_iff (k := 5) rfl (by decide) (by decide) rfl

end BinaryOp

end OnnxSim
