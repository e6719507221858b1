import OnnxSim.Operations.Elementwise

/-!
# Unary operations

`UnaryOp` of `UnaryOp.h` and `UranyOp.cc`. A tile is fetched, transformed in place by one instruction for
each opcode of the operation, and written back. Where a whole number of elements fits in an access and a
whole number of accesses in half of the scratchpad, the tiles partition the tensor
(`UnaryOp.tiles_partition`); a scratchpad of no bytes still gets tiles of one element.
-/

namespace OnnxSim

structure UnaryOp extends ElementwiseNode where
  optype : String
  input : Operand
  /-- The inputs that the operation does not read. -/
  rest : List Operand := []

namespace UnaryOp

/-- `UnaryOp::resolve_opcodes`. -/
def resolveOpcodes (optype : String) : List Opcode :=
  if optype = "Relu" ∨ optype = "Neg" ∨ optype = "Abs" ∨ optype = "Sqrt" ∨ optype = "Cast" then
    [.COMP]
  else if optype = "Exp" then [.EXP]
  else if optype = "Gelu" then [.GELU]
  else if optype = "Tanh" then [.MUL, .EXP, .ADD, .ADD, .DIV]
  else if optype = "Silu" ∨ optype = "SiLU" then [.COMP, .EXP, .ADD, .DIV, .MUL]
  else if optype = "Sigmoid" then [.COMP, .EXP, .ADD, .DIV]
  else if optype = "Erf" then
    [.COMP, .MUL, .ADD, .DIV, .MUL, .MUL, .MUL, .ADD, .MUL, .ADD, .COMP, .EXP, .MUL, .COMP, .MUL]
  else if optype = "Softplus" then [.EXP, .ADD, .EXP]
  else [.COMP]

open ElementwiseNode

variable (op : UnaryOp)

/-- `_dk`. -/
def dk : Nat := flatten op.input.dims

/-- `_tokens_per_tile`. -/
def tokensPerTile : Nat := op.tokensFor op.sramCapacity op.dk

def output : Operand := op.outputOf op.input.dims

def node : Node := op.nodeOf (op.input :: op.rest) op.found.isNone

def inputAddr : AddrType := op.node.getOperandAddr INPUT_OPERAND

def outputAddr : AddrType := op.node.getOperandAddr OUTPUT_OPERAND

/-- One pass over the tile. -/
def compute (tokens : Nat) (opcode : Opcode) : Instruction where
  opcode := opcode
  destAddr := SPAD_BASE
  size := wrap (tokens * op.config.precision) / op.config.dramReqSize
  computeSize := wrap (tokens * op.config.precision)
  srcAddrs := [SPAD_BASE]

def load (tokenOffset : Nat) (offs : List Nat) : Instruction :=
  movin SPAD_BASE (chunkAddrs op.inputAddr (tokenOffset * op.config.precision) offs) INPUT_OPERAND

def store (tokenOffset : Nat) (offs : List Nat) : Instruction :=
  movout SPAD_BASE (chunkAddrs op.outputAddr (tokenOffset * op.config.precision) offs)

/-- The instructions of a tile, for the offsets of its chunks. -/
def program (tokenOffset tokens : Nat) (offs : List Nat) : List Instruction :=
  [op.load tokenOffset offs] ++ (resolveOpcodes op.optype).map (op.compute tokens) ++
    [op.store tokenOffset offs]

/-- `UnaryOp::initialize_instructions`. -/
def initializeInstructions (tokenOffset tokens : Nat) : Option (List Instruction) :=
  if op.config.dramReqSize = 0 then none
  else do
    let offs ← countUpInt (wrap (tokens * op.config.precision)) op.config.dramReqSize
    some (op.program tokenOffset tokens offs)

/-- `UnaryOp::initialize_tiles`, after the division by the precision in `calculate_loops`. -/
def initializeTiles : Option (List Tile) :=
  if op.config.precision = 0 then none
  else op.tileLoop op.dk op.tokensPerTile op.initializeInstructions

theorem opcode_of_mem {optype : String} {opcode : Opcode} (h : opcode ∈ resolveOpcodes optype) :
    opcode ≠ .MOVIN ∧ opcode ≠ .MOVOUT := by
  have hall : ∀ o ∈ resolveOpcodes optype, o ≠ .MOVIN ∧ o ≠ .MOVOUT := by
    unfold resolveOpcodes
    repeat' split
    all_goals decide
  exact hall opcode h

theorem computes (tokens : Nat) : ∀ i ∈ (resolveOpcodes op.optype).map (op.compute tokens),
    i.Computes := by
  intro i hi
  obtain ⟨opcode, hopcode, rfl⟩ := List.mem_map.mp hi
  exact opcode_of_mem hopcode

/-! ## The partition -/

/-- The bytes of the elements. -/
def bytes : Nat := op.input.dims.prod * op.config.precision

/-- The tile fetches what it allocates, and works in place. -/
structure InPlace (t : Tile) (load : Instruction) (computes : List Instruction)
    (store : Instruction) : Prop where
  instructions : t.instructions = [load] ++ computes ++ [store]
  opcodes : load.opcode = .MOVIN ∧ (∀ i ∈ computes, i.Computes) ∧ store.opcode = .MOVOUT
  computes : ∀ i ∈ computes, i.destAddr = load.destAddr ∧ i.srcAddrs = [load.destAddr]
  store : store.destAddr = load.destAddr
  fits : load.size * op.config.dramReqSize ≤ op.sramCapacity
  allocates : ∀ b, ∃ s, (Sram.create op.config false op.targetCore).allocateAll b t.instructions = some s ∧
    s.currentSize b = load.size

/-- The loads of the tiles partition the accesses of the input, and the stores those of the output. -/
structure Partitions (tiles : List Tile) : Prop where
  disjoint : tiles.Pairwise fun s t => Disjoint (s.transfers .MOVIN) (t.transfers .MOVIN)
  cover : ∀ a, (∃ t ∈ tiles, a ∈ t.transfers .MOVIN) ↔ ∃ k, k * op.config.dramReqSize < op.bytes ∧
    a = op.inputAddr + BitVec.ofNat 64 (k * op.config.dramReqSize)
  stores : ∀ t ∈ tiles, ∀ x, op.outputAddr + x ∈ t.transfers .MOVOUT ↔
    op.inputAddr + x ∈ t.transfers .MOVIN
  inPlace : ∀ t ∈ tiles, ∃ load computes store, op.InPlace t load computes store

/-- `remain`. -/
def remain (o : Nat) : Nat := min (op.dk - o) op.tokensPerTile

theorem remain_le (o : Nat) : op.remain o ≤ op.tokensPerTile := Nat.min_le_right _ _

/-- The offsets of the chunks in a tile. -/
def chunkOffs (tokens : Nat) : List Nat :=
  steps (wrap (tokens * op.config.precision)) op.config.dramReqSize

/-- The tile for the tokens from an offset on. -/
def tileAt (o : Nat) : Tile := op.tileOf (op.program o (op.remain o) (op.chunkOffs (op.remain o)))

theorem transfers_movin (o : Nat) : (op.tileAt o).transfers .MOVIN =
    {a | a ∈ chunkAddrs op.inputAddr (o * op.config.precision)
      (op.chunkOffs (op.remain o))} := by
  rw [Tile.transfers_movin (t := op.tileAt o) rfl (by simp [load, movin]) (op.computes _)]
  simp [load, movin]

theorem transfers_movout (o : Nat) : (op.tileAt o).transfers .MOVOUT =
    {a | a ∈ chunkAddrs op.outputAddr (o * op.config.precision)
      (op.chunkOffs (op.remain o))} :=
  Tile.transfers_movout (t := op.tileAt o) rfl (by simp [load, movin]) (op.computes _)

/-- What the sizes of a tensor and a scratchpad have in common. -/
structure Aligned : Prop where
  bytes_lt : op.bytes < 2 ^ 31
  precision_dvd : op.config.precision ∣ op.config.dramReqSize
  dramReqSize_dvd : op.config.dramReqSize ∣ op.sramCapacity
  capacity_pos : 0 < op.sramCapacity

namespace Aligned

variable {op} (h : op.Aligned)

include h

theorem dramReqSize_pos : 0 < op.config.dramReqSize :=
  Nat.pos_of_dvd_of_pos h.dramReqSize_dvd h.capacity_pos

theorem precision_pos : 0 < op.config.precision :=
  Nat.pos_of_dvd_of_pos h.precision_dvd h.dramReqSize_pos

theorem dk_eq : op.dk = op.input.dims.prod := by
  have hle : op.input.dims.prod ≤ op.bytes := Nat.le_mul_of_pos_right _ h.precision_pos
  have hlt := h.bytes_lt
  unfold dk
  rw [flatten_eq, wrap_of_lt (by omega)]

theorem bytes_eq : op.dk * op.config.precision = op.bytes := by
  rw [h.dk_eq]
  rfl

/-- A tile has as many elements as half of the scratchpad, or all of them. -/
theorem tokensPerTile_eq :
    op.tokensPerTile = min (op.sramCapacity / op.config.precision) op.dk := by
  have hroom : 0 < op.sramCapacity / op.config.precision :=
    Nat.div_pos (Nat.le_of_dvd h.capacity_pos (h.precision_dvd.trans h.dramReqSize_dvd))
      h.precision_pos
  unfold tokensPerTile ElementwiseNode.tokensFor
  simp only [hroom.ne', if_false]
  split <;> omega

theorem capacity_eq : op.sramCapacity / op.config.precision * op.config.precision =
    op.sramCapacity := Nat.div_mul_cancel (h.precision_dvd.trans h.dramReqSize_dvd)

/-- So the bytes of a tile are a whole number of accesses, or the whole tensor. -/
theorem tileBytes : op.tokensPerTile * op.config.precision ≤ op.sramCapacity ∧
    (op.config.dramReqSize ∣ op.tokensPerTile * op.config.precision ∨
      op.bytes = op.tokensPerTile * op.config.precision) := by
  have hmul := Nat.mul_le_mul_right op.config.precision
    (Nat.min_le_left (op.sramCapacity / op.config.precision) op.dk)
  rw [h.capacity_eq] at hmul
  rw [h.tokensPerTile_eq]
  refine ⟨hmul, ?_⟩
  rcases Nat.le_total (op.sramCapacity / op.config.precision) op.dk with hle | hle
  · rw [Nat.min_eq_left hle, h.capacity_eq]
    exact .inl h.dramReqSize_dvd
  · rw [Nat.min_eq_right hle, h.bytes_eq]
    exact .inr rfl

theorem tokensPerTile_le : op.tokensPerTile ≤ op.dk := by
  rw [h.tokensPerTile_eq]
  exact Nat.min_le_right _ _

theorem tokensPerTile_pos (hdk : 0 < op.dk) : 0 < op.tokensPerTile := by
  have hroom : 0 < op.sramCapacity / op.config.precision :=
    Nat.div_pos (Nat.le_of_dvd h.capacity_pos (h.precision_dvd.trans h.dramReqSize_dvd))
      h.precision_pos
  rw [h.tokensPerTile_eq]
  omega

/-- No byte offset wraps. -/
theorem offsets_fit :
    op.dk * op.config.precision + op.tokensPerTile * op.config.precision ≤ 2 ^ 32 := by
  have hmul := Nat.mul_le_mul_right op.config.precision h.tokensPerTile_le
  have hlt := h.bytes_lt
  rw [h.bytes_eq] at hmul ⊢
  omega

/-- The loop over the tiles. -/
theorem offsets_eq : countUp op.dk op.tokensPerTile = some (steps op.dk op.tokensPerTile) := by
  rcases Nat.eq_zero_or_pos op.dk with hzero | hpos
  · rw [hzero, countUp_zero, steps_zero]
  · have hle := h.tokensPerTile_le
    have hbytes : op.dk ≤ op.bytes := by
      rw [← h.bytes_eq]
      exact Nat.le_mul_of_pos_right _ h.precision_pos
    have hlt := h.bytes_lt
    exact countUp_of_le (h.tokensPerTile_pos hpos) (by omega)

theorem bytes_le {tokens : Nat} (hle : tokens ≤ op.tokensPerTile) :
    wrap (tokens * op.config.precision) ≤ op.sramCapacity := by
  have hmul := Nat.mul_le_mul_right op.config.precision hle
  exact (Nat.mod_le _ _).trans (hmul.trans h.tileBytes.1)

theorem chunks_le {tokens : Nat} (hle : tokens ≤ op.tokensPerTile) :
    Counters.turns (wrap (tokens * op.config.precision)) op.config.dramReqSize *
      op.config.dramReqSize ≤ op.sramCapacity :=
  Counters.turns_mul_le (h.bytes_le hle) h.dramReqSize_dvd

theorem initializeInstructions_eq (tokenOffset : Nat) {tokens : Nat}
    (hle : tokens ≤ op.tokensPerTile) : op.initializeInstructions tokenOffset tokens =
      some (op.program tokenOffset tokens (op.chunkOffs tokens)) := by
  have hcapacity := op.sramCapacity_lt
  have hchunks := h.chunks_le hle
  have hbytes := h.bytes_le hle
  have hloop : countUpInt (wrap (tokens * op.config.precision)) op.config.dramReqSize =
      some (op.chunkOffs tokens) := by
    unfold countUpInt chunkOffs
    split
    · rename_i hzero
      have hnone : wrap (tokens * op.config.precision) = 0 := by omega
      rw [hnone, steps_zero]
    · rw [if_pos ⟨h.dramReqSize_pos, by omega⟩]
  unfold initializeInstructions
  rw [if_neg h.dramReqSize_pos.ne', hloop]
  rfl

theorem initializeTiles_eq : op.initializeTiles =
    some ((steps op.dk op.tokensPerTile).map op.tileAt) := by
  unfold initializeTiles
  rw [if_neg h.precision_pos.ne']
  exact op.tileLoop_eq h.offsets_eq fun o _ =>
    h.initializeInstructions_eq o (Nat.min_le_right _ _)

/-- The places of a tile are the multiples of the access in it. -/
theorem place_iff {m : Nat} : Strips.Place (op.dk * op.config.precision)
    (op.tokensPerTile * op.config.precision) op.config.dramReqSize m ↔
      m < op.bytes ∧ op.config.dramReqSize ∣ m := by
  rw [h.bytes_eq]
  rcases h.tileBytes.2 with hdvd | hwhole
  · exact Strips.place_iff_dvd hdvd
  · exact Strips.place_iff_dvd_of_le hwhole.le

theorem cover (a : AddrType) : (∃ o ∈ steps op.dk op.tokensPerTile,
    a ∈ (op.tileAt o).transfers .MOVIN) ↔ ∃ k, k * op.config.dramReqSize < op.bytes ∧
      a = op.inputAddr + BitVec.ofNat 64 (k * op.config.dramReqSize) := by
  rcases Nat.eq_zero_or_pos op.dk with hzero | hpos
  · have hnone : op.bytes = 0 := by
      rw [← h.bytes_eq, hzero, Nat.zero_mul]
    rw [hzero, hnone, steps_zero]
    simp
  simp only [op.transfers_movin, Set.mem_ofPred_eq]
  refine (exists_tileChunk_iff (h.tokensPerTile_pos hpos) h.precision_pos h.dramReqSize_pos
    h.offsets_fit).trans ?_
  simp only [h.place_iff]
  constructor
  · rintro ⟨m, ⟨hlt, k, rfl⟩, rfl⟩
    rw [Nat.mul_comm] at hlt ⊢
    exact ⟨k, hlt, rfl⟩
  · rintro ⟨k, hlt, rfl⟩
    exact ⟨_, ⟨hlt, Nat.dvd_mul_left _ _⟩, rfl⟩

/-- The tiles of two offsets fetch no access in common. -/
theorem disjoint {o o' : Nat} (ho : o + op.tokensPerTile ≤ o') (ho' : o' < op.dk) :
    Disjoint ((op.tileAt o).transfers .MOVIN) ((op.tileAt o').transfers .MOVIN) := by
  rw [op.transfers_movin, op.transfers_movin, Set.disjoint_left]
  intro a ha ha'
  obtain ⟨j, hj, rfl⟩ := (mem_tileChunks (by omega) h.dramReqSize_pos h.offsets_fit).mp ha
  obtain ⟨j', hj', heq⟩ := (mem_tileChunks ho' h.dramReqSize_pos h.offsets_fit).mp ha'
  have hfit := h.offsets_fit
  have hnext := Nat.mul_le_mul_right op.config.precision ho
  rw [Nat.add_mul] at hnext
  have hsame := Spans.add_ofNat_inj (by omega) (by omega) heq
  omega

theorem load_fits (o : Nat) : (op.load o (op.chunkOffs (op.remain o))).size *
    op.config.dramReqSize ≤ op.sramCapacity := by
  have hbytes := h.bytes_le (op.remain_le o)
  have hcapacity := op.sramCapacity_lt
  have hsize : (op.load o (op.chunkOffs (op.remain o))).size =
      Counters.turns (wrap (op.remain o * op.config.precision)) op.config.dramReqSize :=
    length_chunkAddrs h.dramReqSize_pos (hbytes.trans (show op.sramCapacity ≤ 2 ^ 32 by omega))
  rw [hsize]
  exact h.chunks_le (op.remain_le o)

/-- The load allocates its chunks, and the compute instructions count up. -/
theorem allocateAll (o : Nat) (b : Nat) : ∃ s, (Sram.create op.config false op.targetCore).allocateAll b
    (op.tileAt o).instructions = some s ∧
      s.currentSize b = (op.load o (op.chunkOffs (op.remain o))).size := by
  have hroom : ((Sram.create op.config false op.targetCore).currentSize b +
      (op.load o (op.chunkOffs (op.remain o))).size) *
        (Sram.create op.config false op.targetCore).dataWidth ≤
      (Sram.create op.config false op.targetCore).size := by
    show (0 + _) * op.config.dramReqSize ≤ op.sramCapacity
    rw [Nat.zero_add]
    exact h.load_fits o
  obtain ⟨s₁, hs₁⟩ : ∃ s₁, (Sram.create op.config false op.targetCore).allocate b
      (op.load o (op.chunkOffs (op.remain o))) = some s₁ :=
    Option.isSome_iff_exists.mp ((Sram.prefetch_isSome_iff rfl).mpr hroom)
  obtain ⟨hsize, hallocated⟩ := Sram.prefetch_allocates hs₁
  have hdest : s₁.checkAllocated SPAD_BASE b := by
    rw [hallocated]
    simp [load, movin]
  have hcomputes : ∀ i ∈ (resolveOpcodes op.optype).map (op.compute (op.remain o)),
      i.opcode ≠ .MOVIN ∧ i.destAddr = SPAD_BASE := by
    intro i hi
    obtain ⟨opcode, hopcode, rfl⟩ := List.mem_map.mp hi
    exact ⟨(opcode_of_mem hopcode).1, rfl⟩
  obtain ⟨s₂, hs₂, hsame⟩ := Sram.allocateAll_computes hdest hcomputes
  refine ⟨s₂, ?_, ?_⟩
  · have hload : (Sram.create op.config false op.targetCore).allocateAll b
        [op.load o (op.chunkOffs (op.remain o))] = some s₁ := by
      rw [Sram.allocateAll_cons, hs₁]
      rfl
    show (Sram.create op.config false op.targetCore).allocateAll b (op.program o _ _) = _
    rw [program, Sram.allocateAll_append, Sram.allocateAll_append, hload, Option.bind_some, hs₂]
    rfl
  · rw [hsame, hsize]
    exact Nat.zero_add _

theorem inPlace (o : Nat) : ∃ load computes store, op.InPlace (op.tileAt o) load computes store := by
  refine ⟨op.load o (op.chunkOffs (op.remain o)),
    (resolveOpcodes op.optype).map (op.compute (op.remain o)),
    op.store o (op.chunkOffs (op.remain o)), ?_⟩
  constructor
  · rfl
  · exact ⟨rfl, op.computes _, rfl⟩
  · intro i hi
    obtain ⟨opcode, -, rfl⟩ := List.mem_map.mp hi
    exact ⟨rfl, rfl⟩
  · rfl
  · exact h.load_fits o
  · exact h.allocateAll o

end Aligned

/-- Where accesses have a whole number of elements and half of a scratchpad that is not empty a whole
number of accesses, the tiles partition the tensor. -/
theorem tiles_partition (h : op.Aligned) :
    ∃ tiles, op.initializeTiles = some tiles ∧ op.Partitions tiles := by
  refine ⟨_, h.initializeTiles_eq, ?_⟩
  constructor
  · rw [List.pairwise_map]
    exact (pairwise_steps _ _).imp fun hpair => h.disjoint hpair.1 hpair.2
  · intro a
    rw [← h.cover]
    simp only [List.mem_map, exists_exists_and_eq_and]
  · intro t ht x
    obtain ⟨o, -, rfl⟩ := List.mem_map.mp ht
    rw [op.transfers_movin, op.transfers_movout]
    simp only [Set.mem_ofPred_eq, mem_chunkAddrs, add_assoc, add_right_inj]
  · intro t ht
    obtain ⟨o, -, rfl⟩ := List.mem_map.mp ht
    exact h.inPlace o

/-- Negation of two elements, with an empty scratchpad. -/
def noSpad : UnaryOp where
  config := { numCores := 1, dramChannels := 1, dramReqSize := 32 }
  id := 0
  outputAddress := 256
  optype := "Neg"
  input := ⟨[2], 0, 8, by decide⟩

/-- Without a scratchpad each element has a tile of its own, and its load does not start at an access. -/
theorem noSpad_not_partitioned : ¬ ∀ op : UnaryOp, op.bytes < 2 ^ 31 →
    op.config.precision ∣ op.config.dramReqSize → op.config.dramReqSize ∣ op.sramCapacity →
      ∃ tiles, op.initializeTiles = some tiles ∧ op.Partitions tiles := by
  intro hall
  obtain ⟨tiles, htiles, hpart⟩ := hall noSpad (by decide) (by decide) (by decide)
  have hmade : noSpad.initializeTiles = some [noSpad.tileAt 0, noSpad.tileAt 1] := by
    rfl
  obtain rfl := Option.some.inj (htiles.symm.trans hmade)
  have hload : (4 : AddrType) ∈ (noSpad.tileAt 1).transfers .MOVIN := by
    rw [transfers_movin]
    decide
  obtain ⟨k, hk, heq⟩ := (hpart.cover 4).mp ⟨_, by simp, hload⟩
  have hbytes : noSpad.bytes = 8 := rfl
  have hreq : noSpad.config.dramReqSize = 32 := rfl
  rw [hbytes, hreq] at hk
  obtain rfl : k = 0 := by omega
  revert heq
  decide

/-- Three tiles of a tensor of 1200 bytes. -/
def threeTiles : UnaryOp where
  config := { numCores := 1, coreConfig := fun _ => { spadSize := 1 }, dramChannels := 1, dramReqSize := 32 }
  id := 0
  outputAddress := 1280
  optype := "Sigmoid"
  input := ⟨[3, 100], 0, 1200, by decide⟩

theorem tiles_partition_threeTiles :
    ∃ tiles, threeTiles.initializeTiles = some tiles ∧ threeTiles.Partitions tiles :=
  threeTiles.tiles_partition ⟨by decide, by decide, by decide, by decide⟩

end UnaryOp

end OnnxSim
