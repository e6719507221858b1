import OnnxSim.Lib.Loops
import OnnxSim.Operations.Basic

/-!
# The tiling of an attention

`Attention::calculate_loops` and the fused branch of `Attention::initialize_tiles`. The arithmetic is
that of 32-bit words, and a division by zero is `none`. The generator of the instructions of a tile is
a parameter. The estimates that are only logged are left out.

The loops over the tiles can be empty: where a block of the keys fits in half of the accumulator but
the scores of one query do not (`Attention.tileOutLoop_eq_zero_iff`).
-/

namespace OnnxSim

structure Attention extends Node where
  batchSize : Nat := 1
  qLen : Nat
  seq : Nat
  nh : Nat
  nkvh : Nat
  dk : Nat

namespace Attention

variable (op : Attention)

/-- `spad_capacity`. -/
def spadCapacity : Nat := wrap ((op.config.coreConfig op.targetCore).spadSize * 1024) / 2

/-- `acc_spad_capacity`. -/
def accSpadCapacity : Nat := wrap ((op.config.coreConfig op.targetCore).accumSpadSize * 1024) / 2

def headsPerKv : Nat := op.nh / op.nkvh

def perQuerySize : Nat := wrap (op.headsPerKv * op.dk * op.config.precision)

/-- The bytes of the keys and the values of a head. -/
def keyValueSize : Nat := wrap (2 * op.seq * op.dk * op.config.precision)

/-- The bytes that a query takes in the accumulator. -/
def perQueryScores : Nat := wrap ((op.seq * op.config.precision + 2 * 4) * op.headsPerKv)

def tilesPerHead : Nat :=
  max (ceilDiv (wrap (op.seq * op.config.precision)) op.accSpadCapacity)
    (ceilDiv op.keyValueSize (wrapSub op.spadCapacity op.perQuerySize))

/-- `q_len` where the keys of a head are one tile: the queries that fit with them. -/
def queriesPerTile : Option Nat :=
  if op.perQueryScores = 0 ∨ op.perQuerySize = 0 then none
  else
    some (min (min op.qLen (op.accSpadCapacity / op.perQueryScores))
      (wrapSub op.spadCapacity op.keyValueSize / op.perQuerySize))

/-- `q_len`, `seq_len` and `tile_out_loop`. -/
def tileLens : Option (Nat × Nat × Nat) :=
  if 1 < op.tilesPerHead then
    some (1, ceilDiv op.seq op.tilesPerHead, wrap (op.qLen * op.nkvh))
  else
    op.queriesPerTile.map fun qLen => (qLen, op.seq, wrap (ceilDiv op.qLen qLen * op.nkvh))

/-- `calculate_loops`. Each turn of the loop over the batch computes the same mapping. -/
def calculateLoops : Option Mapping :=
  if op.batchSize = 0 then some { totalLoop := {}, tileInLoop := {}, tileOutLoop := {} }
  else if op.nkvh = 0 then none
  else
    op.tileLens.map fun (qLen, seqLen, tileOutLoop) =>
      let inner := wrap (qLen * op.headsPerKv)
      { totalLoop := { N := wrap (inner * tileOutLoop), C := op.dk, M := op.seq }
        tileInLoop := { N := inner, C := op.dk, M := seqLen }
        tileOutLoop := { N := tileOutLoop, C := 1, M := ceilDiv op.seq seqLen } }

/-- The tiles in the order of the loops. -/
def tileLoops (mapping : Mapping) : List (Nat × Nat) :=
  (List.range mapping.tileOutLoop.N).flatMap fun n =>
    (List.range mapping.tileOutLoop.M).map fun m => (n, m)

/-- The body of the loops of `initialize_tiles`; `instructions tile headOff headsPerKv` is what
`initialize_instructions` gives. -/
def initializeTile (instructions : Tile → Nat → Nat → Option (List Instruction)) (mapping : Mapping)
    (loop : Nat × Nat) : Option Tile := do
  let (n, m) := loop
  let qlenOffset := mapping.tileOutLoop.N / op.nkvh
  if op.nkvh = 0 ∨ qlenOffset = 0 then none
  else
    let tile : Tile :=
      { status := .INITIALIZED
        layerId := op.id
        fusedOpId := n * mapping.tileOutLoop.M + m
        batch := n
        Q := 1
        P := 1
        M := m
        C := 1
        S := 1
        R := 1
        accum := m ≠ 0
        coreId := n % op.config.numCores }
    let insts ← instructions tile (n / qlenOffset * op.headsPerKv) op.headsPerKv
    some { tile with instructions := insts }

/-- The fused branch of `initialize_tiles`. -/
def initializeTiles (instructions : Mapping → Tile → Nat → Nat → Option (List Instruction)) :
    Option (List Tile) := do
  let mapping ← op.calculateLoops
  (tileLoops mapping).mapM (op.initializeTile (instructions mapping) mapping)

variable {op : Attention} {mapping : Mapping} {tiles : List Tile}
  {instructions : Mapping → Tile → Nat → Nat → Option (List Instruction)}

theorem tileLoops_eq_nil_iff :
    tileLoops mapping = [] ↔ mapping.tileOutLoop.N = 0 ∨ mapping.tileOutLoop.M = 0 := by
  simp only [tileLoops, List.flatMap_eq_nil_iff, List.mem_range, List.map_eq_nil_iff,
    List.range_eq_nil]
  constructor
  · intro hall
    by_cases hn : mapping.tileOutLoop.N = 0
    · exact .inl hn
    · exact .inr (hall 0 (Nat.pos_of_ne_zero hn))
  · rintro (hn | hm) n hlt
    · omega
    · exact hm

/-- There is a tile for each turn of the loops. -/
theorem initializeTiles_length (hmap : op.calculateLoops = some mapping)
    (h : op.initializeTiles instructions = some tiles) : tiles.length = (tileLoops mapping).length := by
  unfold initializeTiles at h
  rw [hmap] at h
  exact (Loops.forall₂_of_mapM h).length_eq.symm

theorem initializeTiles_eq_nil_iff (hmap : op.calculateLoops = some mapping)
    (h : op.initializeTiles instructions = some tiles) :
    tiles = [] ↔ mapping.tileOutLoop.N = 0 ∨ mapping.tileOutLoop.M = 0 := by
  rw [← tileLoops_eq_nil_iff, ← List.length_eq_zero_iff, ← List.length_eq_zero_iff,
    initializeTiles_length hmap h]

/-- The tiles carry the identifier of the operation. -/
theorem initializeTiles_layerId (h : op.initializeTiles instructions = some tiles) {t : Tile}
    (ht : t ∈ tiles) : t.layerId = op.id := by
  obtain ⟨mapping, -, h⟩ := Option.bind_eq_some_iff.mp h
  obtain ⟨⟨n, m⟩, -, htile⟩ := Loops.exists_of_mem h ht
  unfold initializeTile at htile
  simp only at htile
  split at htile
  · cases htile
  · obtain ⟨insts, -, htile⟩ := Option.bind_eq_some_iff.mp htile
    obtain rfl := Option.some.inj htile
    rfl

theorem queriesPerTile_eq_zero_iff (h : op.perQueryScores ≠ 0 ∧ op.perQuerySize ≠ 0) :
    op.queriesPerTile = some 0 ↔ op.qLen = 0 ∨ op.accSpadCapacity < op.perQueryScores ∨
      wrapSub op.spadCapacity op.keyValueSize < op.perQuerySize := by
  obtain ⟨hscores, hsize⟩ := h
  simp only [queriesPerTile, hscores, hsize, or_self, if_false, Option.some_inj,
    Nat.min_eq_zero_iff, Nat.div_eq_zero_iff, false_or, or_assoc]

/-- Where the sizes are small, the loop over the tiles is empty exactly when there is no query or the
keys of a head are one tile and not even one query fits with them. -/
theorem tileOutLoop_eq_zero_iff (hmap : op.calculateLoops = some mapping)
    (hbatch : op.batchSize ≠ 0) (hlen : 2 * op.qLen ≤ 2 ^ 32)
    (hsize : op.qLen * op.nkvh < 2 ^ 32) :
    mapping.tileOutLoop.N = 0 ↔ op.qLen = 0 ∨ op.tilesPerHead ≤ 1 ∧ op.queriesPerTile = some 0 := by
  unfold calculateLoops at hmap
  rw [if_neg hbatch] at hmap
  split at hmap
  · cases hmap
  · rename_i hheads
    obtain ⟨⟨qLen, seqLen, outer⟩, hlens, rfl⟩ := Option.map_eq_some_iff.mp hmap
    change outer = 0 ↔ _
    unfold tileLens at hlens
    split at hlens
    · rename_i hmany
      obtain ⟨-, -, rfl⟩ : 1 = qLen ∧ _ = seqLen ∧ _ = outer := by simpa using hlens
      rw [wrap_of_lt hsize, Nat.mul_eq_zero]
      simp [hheads, Nat.not_le.mpr hmany]
    · rename_i hone
      obtain ⟨q, hq, hlens⟩ := Option.map_eq_some_iff.mp hlens
      obtain ⟨-, -, rfl⟩ : q = qLen ∧ _ = seqLen ∧ _ = outer := by simpa using hlens
      have hle : q ≤ op.qLen := by
        unfold queriesPerTile at hq
        split at hq
        · cases hq
        · obtain rfl := Option.some.inj hq
          omega
      have hprod : ceilDiv op.qLen q * op.nkvh < 2 ^ 32 :=
        (Nat.mul_le_mul_right op.nkvh (ceilDiv_le (by omega))).trans_lt hsize
      rw [wrap_of_lt hprod, Nat.mul_eq_zero, ceilDiv_eq_zero_iff (by omega), hq]
      simp [hheads, Nat.not_lt.mp hone]

end Attention

end OnnxSim
