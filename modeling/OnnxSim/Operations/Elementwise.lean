import OnnxSim.Lib.Counters
import OnnxSim.Lib.Loops
import OnnxSim.Lib.Strips
import OnnxSim.Model.TensorMemory
import OnnxSim.Operations.Access
import OnnxSim.Sram

/-!
# What the element-wise operations share

`UnaryOp`, `BinaryOp`, `ShapeOp`, `BiasAct` and `SkipLayerNorm` cut their tokens into tiles and fetch
each operand of a tile by its chunks of `dram_req_size` bytes. Unlike in the other tilings, the sums and
products of `uint32_t` are taken to wrap here.
-/

namespace OnnxSim

/-! ## Loops -/

/-- `for (uint32_t x = 0; x < bound; x += step)`. -/
def countUp (bound step : Nat) : Option (List Nat) := Counters.upTo (2 ^ 32) bound step

/-- `for (int x = 0; x < (int)bound; x += (int)step)` for two `uint32_t`. A loop that ends in a signed
overflow is `none`. -/
def countUpInt (bound step : Nat) : Option (List Nat) :=
  if bound = 0 ∨ 2 ^ 31 ≤ bound then some []
  else if 0 < step ∧ Counters.turns bound step * step < 2 ^ 31 then some (steps bound step)
  else none

theorem countUp_of_le {bound step : Nat} (hstep : 0 < step) (h : bound + step ≤ 2 ^ 32) :
    countUp bound step = some (steps bound step) :=
  Counters.upTo_of_lt hstep (Nat.lt_of_lt_of_le (Counters.turns_mul_lt hstep) h)

@[simp] theorem countUp_zero (step : Nat) : countUp 0 step = some [] :=
  Counters.upTo_zero (Nat.two_pow_pos 32) step

theorem countUp_step_pos {bound step : Nat} {l : List Nat} (h : countUp bound step = some l)
    (hbound : 0 < bound) : 0 < step := by
  obtain ⟨n, -, -, hend⟩ := (Counters.upTo_eq_some_iff (Nat.two_pow_pos 32)).mp h
  refine Nat.pos_of_ne_zero ?_
  rintro rfl
  rw [Nat.mul_zero, Nat.zero_mod] at hend
  omega

/-- A loop below 2^31 has the steps below the bound, if it ends. -/
theorem countUp_of_some {bound step : Nat} {l : List Nat} (h : countUp bound step = some l)
    (hbound : bound < 2 ^ 31) (hstep : step < 2 ^ 32) : l = steps bound step := by
  rcases Nat.eq_zero_or_pos bound with rfl | hpos
  · rw [countUp_zero] at h
    rw [steps_zero, Option.some.inj h]
  · have hsteppos := countUp_step_pos h hpos
    have hend : Counters.turns bound step * step < 2 ^ 32 := by
      rcases Nat.lt_or_ge step bound with hlt | hge
      · have hturns : Counters.turns bound step * step < bound + step := Counters.turns_mul_lt hsteppos
        omega
      · have hone : Counters.turns bound step = 1 :=
          Counters.turns_eq hsteppos (fun i hi => by
            obtain rfl : i = 0 := by omega
            omega) (by omega)
        rwa [hone, Nat.one_mul]
    exact Option.some.inj (h.symm.trans (Counters.upTo_of_lt hsteppos hend))

theorem zero_mem_countUp {bound step : Nat} {l : List Nat} (h : countUp bound step = some l)
    (hbound : 0 < bound) : 0 ∈ l := by
  obtain ⟨n, rfl, -, hend⟩ := (Counters.upTo_eq_some_iff (Nat.two_pow_pos 32)).mp h
  cases n with
  | zero =>
    rw [Nat.zero_mul, Nat.zero_mod] at hend
    omega
  | succ n => exact List.mem_map.mpr ⟨0, List.mem_range.mpr (Nat.succ_pos n), by simp⟩

theorem lt_of_mem_countUp {bound step x : Nat} {l : List Nat} (h : countUp bound step = some l)
    (hx : x ∈ l) : x < bound := by
  obtain ⟨n, rfl, hbelow, -⟩ := (Counters.upTo_eq_some_iff (Nat.two_pow_pos 32)).mp h
  obtain ⟨i, hi, rfl⟩ := List.mem_map.mp hx
  exact hbelow i (List.mem_range.mp hi)

/-- With a step that is a power of two the loop has the steps below the bound, if it ends. -/
theorem countUp_of_two_pow {bound k : Nat} {l : List Nat} (hk : k ≤ 32)
    (h : countUp bound (2 ^ k) = some l) : l = steps bound (2 ^ k) :=
  (Counters.eq_of_upTo_of_dvd (Nat.two_pow_pos k) (Nat.two_pow_pos 32) (Nat.pow_dvd_pow 2 hk) h).2

theorem countUpInt_of_some {bound step : Nat} {l : List Nat} (h : countUpInt bound step = some l)
    (hbound : bound < 2 ^ 31) : l = steps bound step := by
  unfold countUpInt at h
  split at h
  · rename_i hzero
    obtain rfl := Option.some.inj h
    obtain rfl : bound = 0 := by omega
    exact (steps_zero step).symm
  · split at h
    · exact (Option.some.inj h).symm
    · cases h

theorem pairwise_steps (bound step : Nat) :
    (steps bound step).Pairwise fun x y => x + step ≤ y ∧ y < bound := by
  rcases Nat.eq_zero_or_pos step with rfl | hstep
  · unfold steps
    rw [Nat.div_zero]
    exact .nil
  · unfold steps
    rw [List.pairwise_map]
    refine List.pairwise_lt_range.imp_of_mem fun {i k} _ hk hlt => ?_
    rw [← Nat.succ_mul]
    exact ⟨Nat.mul_le_mul_right step hlt, (Counters.lt_turns_iff hstep).mp (List.mem_range.mp hk)⟩

theorem length_steps (bound step : Nat) : (steps bound step).length = Counters.turns bound step := by
  unfold steps Counters.turns
  rw [List.length_map, List.length_range]

/-! ## Operands -/

/-- A tensor as an operation sees it. -/
structure Operand where
  dims : List Nat
  address : AddrType
  /-- `get_size`. -/
  size : Nat
  size_lt : size < 2 ^ 63

namespace Operand

/-- The tensor that the constructor makes of a shape. -/
def create (config : SimulationConfig) (dims : List Nat) (address : AddrType) : Operand where
  dims := dims
  address := address
  size := allocatedSize config.precision dims
  size_lt := Nat.lt_trans (Nat.mod_lt _ (by decide)) (by decide)

/-- The addresses from `get_address` up to `get_address + get_size`. -/
def region (t : Operand) : Set AddrType := Spans.Span t.address t.size

end Operand

/-- The product of the dimensions, in `uint32_t`. -/
def flatten (shape : List Nat) : Nat := shape.foldl (fun n d => wrap (n * d)) 1

theorem flatten_eq (shape : List Nat) : flatten shape = wrap shape.prod := by
  have hprod : ∀ (l : List Nat) (acc : Nat),
      wrap (l.foldl (fun n d => wrap (n * d)) acc) = wrap (acc * l.prod) := by
    intro l
    induction l with
    | nil => intro acc; rw [List.prod_nil, Nat.mul_one]; rfl
    | cons d l ih =>
      intro acc
      rw [List.foldl_cons, ih, List.prod_cons, ← Nat.mul_assoc]
      exact Nat.mod_mul_mod _ _ _
  have hlt : flatten shape < 2 ^ 32 := by
    rcases shape.eq_nil_or_concat with rfl | ⟨l, d, rfl⟩
    · decide
    · unfold flatten
      rw [List.concat_eq_append, List.foldl_append]
      exact Nat.mod_lt _ (by decide)
  rw [← wrap_of_lt hlt]
  exact (hprod shape 1).trans (by rw [Nat.one_mul])

/-- A new tensor has the bytes of its elements, in `uint32_t`. -/
theorem Operand.create_size (config : SimulationConfig) (dims : List Nat) (address : AddrType) :
    (create config dims address).size = wrap (flatten dims * config.precision) := by
  have hsize := TensorShape.allocated_eq ⟨dims, config.precision⟩
  rw [flatten_eq]
  exact hsize.trans (Nat.mod_mul_mod _ _ _).symm

/-- What an element-wise operation has from `Operation` and the model. -/
structure ElementwiseNode where
  config : SimulationConfig
  id : Nat
  targetCore : Nat := 0
  /-- Where `allocate_address` puts a new output tensor. -/
  outputAddress : AddrType
  /-- The tensor that the model already has under the name of the output, as `redefine_tensor` leaves
  it. A constructor that finds one makes no tensor, and leaves `_outputs` empty. -/
  found : Option Operand := none

namespace ElementwiseNode

variable (op : ElementwiseNode)

/-- The tensor of the output. -/
def outputOf (shape : List Nat) : Operand :=
  op.found.getD (.create op.config shape op.outputAddress)

/-- What `get_operand_addr` reads; `registered` if the new tensor is in `_outputs`. -/
def nodeOf (inputs : List Operand) (registered : Bool) : Node where
  config := op.config
  id := op.id
  inputs := inputs.map (·.address)
  outputs := if registered then [op.outputAddress] else []
  targetCore := op.targetCore

/-- `spad_size KB / 2`. -/
def sramCapacity : Nat := wrap ((op.config.coreConfig op.targetCore).spadSize * 1024) / 2

theorem sramCapacity_lt : op.sramCapacity < 2 ^ 31 := by
  have hwrap : wrap ((op.config.coreConfig op.targetCore).spadSize * 1024) < 2 ^ 32 :=
    Nat.mod_lt _ (by decide)
  unfold sramCapacity
  omega

/-- `_tokens_per_tile` for tiles of `capacity` bytes: one token at least, all of them at most. -/
def tokensFor (capacity dk : Nat) : Nat :=
  let tokens := capacity / op.config.precision
  let tokens := if tokens = 0 then 1 else tokens
  if tokens > dk then dk else tokens

theorem tokensFor_eq (capacity dk : Nat) :
    op.tokensFor capacity dk = min dk (max 1 (capacity / op.config.precision)) := by
  unfold tokensFor
  generalize capacity / op.config.precision = tokens
  dsimp only
  split <;> split <;> omega

/-- A tile of the operation. -/
def tileOf (is : List Instruction) : Tile where
  status := .INITIALIZED
  layerId := op.id
  accum := false
  instructions := is

/-- `initialize_tiles`: a tile for every `tokensPerTile` of `total` tokens. -/
def tileLoop (total tokensPerTile : Nat) (instructions : Nat → Nat → Option (List Instruction)) :
    Option (List Tile) := do
  let offsets ← countUp total tokensPerTile
  offsets.mapM fun offset => do
    let is ← instructions offset (min (total - offset) tokensPerTile)
    some (op.tileOf is)

/-- The set of `base + base_off + off` for the offsets of a loop. -/
def chunkAddrs (base : AddrType) (baseOff : Nat) (offs : List Nat) : List AddrType :=
  addrSet (offs.map fun off => base + word baseOff + word off)

/-- A MOVIN of an operand. -/
def movin (destAddr : AddrType) (addrs : List AddrType) (operandId : Nat) : Instruction where
  opcode := .MOVIN
  destAddr := destAddr
  size := addrs.length
  srcAddrs := addrs
  operandId := operandId

/-- A MOVOUT of the output. -/
def movout (destAddr : AddrType) (addrs : List AddrType) : Instruction where
  opcode := .MOVOUT
  destAddr := destAddr
  size := addrs.length
  srcAddrs := addrs
  operandId := OUTPUT_OPERAND

/-- The tiles, where every turn of the loop has its instructions. -/
theorem tileLoop_eq {total tokensPerTile : Nat} {offsets : List Nat}
    {instructions : Nat → Nat → Option (List Instruction)} {program : Nat → List Instruction}
    (hoffsets : countUp total tokensPerTile = some offsets)
    (h : ∀ o ∈ offsets, instructions o (min (total - o) tokensPerTile) = some (program o)) :
    op.tileLoop total tokensPerTile instructions =
      some (offsets.map fun o => op.tileOf (program o)) := by
  unfold tileLoop
  rw [hoffsets]
  exact Loops.mapM_eq_map fun o ho => by rw [h o ho]; rfl

/-- Each tile has the instructions of a turn of the loop. -/
theorem mem_of_tileLoop {total tokensPerTile : Nat} {tiles : List Tile}
    {instructions : Nat → Nat → Option (List Instruction)}
    (h : op.tileLoop total tokensPerTile instructions = some tiles) :
    ∃ offsets, countUp total tokensPerTile = some offsets ∧
      (∀ o ∈ offsets, ∃ is, instructions o (min (total - o) tokensPerTile) = some is) ∧
      ∀ t, t ∈ tiles ↔ ∃ o ∈ offsets, ∃ is,
        instructions o (min (total - o) tokensPerTile) = some is ∧ t = op.tileOf is := by
  unfold tileLoop at h
  obtain ⟨offsets, hoffsets, h⟩ := Option.bind_eq_some_iff.mp h
  refine ⟨offsets, hoffsets, ?_, fun t => ?_⟩
  · intro o ho
    obtain ⟨t, ht⟩ := Loops.exists_mapM_iff.mp ⟨tiles, h⟩ o ho
    obtain ⟨is, his, -⟩ := Option.bind_eq_some_iff.mp ht
    exact ⟨is, his⟩
  · rw [Loops.mem_iff_of_mapM h]
    refine exists_congr fun o => and_congr_right fun _ => ?_
    rw [Option.bind_eq_bind, Option.bind_eq_some_iff]
    exact exists_congr fun is => and_congr_right fun _ => by rw [Option.some.injEq, eq_comm]

end ElementwiseNode

/-! ## What a tile allocates -/

namespace Sram

/-- What an instruction does to the buffer of its destination: a load allocates it, a compute
instruction allocates it or counts one more result. -/
def allocate (s : Sram) (bufferId : Nat) (i : Instruction) : Option Sram :=
  match i.opcode with
  | .MOVIN => s.prefetch i.destAddr bufferId i.size i.size
  | .MOVOUT | .MOVOUT_POOL => some s
  | _ =>
    if s.checkAllocated i.destAddr bufferId then s.countUp i.destAddr bufferId
    else s.prefetch i.destAddr bufferId i.size (if i.zeroInit then i.size else 1)

/-- What the instructions of a tile allocate, in their order; `none` where the core exits. -/
def allocateAll (s : Sram) (bufferId : Nat) (is : List Instruction) : Option Sram :=
  is.foldlM (fun s i => s.allocate bufferId i) s

variable {s : Sram} {address : AddrType} {b n : Nat}

theorem prefetch_isSome_iff {count : Nat} (hnew : s.checkAllocated address b = false) :
    (s.prefetch address b n count).isSome ↔ (s.currentSize b + n) * s.dataWidth ≤ s.size := by
  unfold prefetch
  rw [hnew, if_neg Bool.false_ne_true]
  unfold checkRemain
  split
  · rename_i hroom
    simpa using hroom
  · rename_i hroom
    simpa using hroom

theorem prefetch_allocates {s' : Sram} {count : Nat} (h : s.prefetch address b n count = some s') :
    s'.currentSize b = s.currentSize b + n ∧ ∀ a, s'.checkAllocated a b =
      (decide (a = address) || s.checkAllocated a b) := by
  unfold prefetch at h
  split at h
  · cases h
  · split at h
    · obtain rfl := Option.some.inj h
      refine ⟨Function.update_self .., fun a => ?_⟩
      unfold checkAllocated setEntry
      simp only [Function.update_self]
      by_cases ha : a = address
      · rw [ha, Function.update_self]
        simp
      · rw [Function.update_of_ne ha]
        simp [ha]
    · cases h

theorem allocate_new {i : Instruction} (hstore : i.opcode ≠ .MOVOUT ∧ i.opcode ≠ .MOVOUT_POOL)
    (hnew : s.checkAllocated i.destAddr b = false)
    (hroom : (s.currentSize b + i.size) * s.dataWidth ≤ s.size) :
    ∃ s', s.allocate b i = some s' ∧ s'.currentSize b = s.currentSize b + i.size ∧
      s'.size = s.size ∧ s'.dataWidth = s.dataWidth ∧
      ∀ a, s'.checkAllocated a b = (decide (a = i.destAddr) || s.checkAllocated a b) := by
  have hcount : ∃ count, s.allocate b i = s.prefetch i.destAddr b i.size count := by
    unfold allocate
    split
    · exact ⟨_, rfl⟩
    · exact absurd ‹_› hstore.1
    · exact absurd ‹_› hstore.2
    · rw [hnew]
      exact ⟨_, rfl⟩
  obtain ⟨count, hcount⟩ := hcount
  obtain ⟨s', hs'⟩ := Option.isSome_iff_exists.mp
    (prefetch_isSome_iff hnew |>.mpr hroom : (s.prefetch i.destAddr b i.size count).isSome)
  obtain ⟨hcurrent, hallocated⟩ := prefetch_allocates hs'
  obtain ⟨-, -, hsize, hwidth⟩ := prefetch_eq_some hs'
  exact ⟨s', hcount.trans hs', hcurrent, hsize, hwidth, hallocated⟩

/-- A compute instruction on a destination that is allocated allocates nothing. -/
theorem countUp_allocated (h : s.checkAllocated address b) : ∃ s', s.countUp address b = some s' ∧
    s'.currentSize = s.currentSize ∧ s'.checkAllocated address b := by
  obtain ⟨e, he⟩ := Option.isSome_iff_exists.mp h
  refine ⟨s.setEntry b address { e with remainReqCount := e.remainReqCount + 1, valid := false },
    ?_, rfl, ?_⟩
  · unfold countUp
    rw [he]
    rfl
  · unfold checkAllocated setEntry
    simp

theorem allocateAll_cons (s : Sram) (b : Nat) (i : Instruction) (is : List Instruction) :
    s.allocateAll b (i :: is) = (s.allocate b i).bind fun s => s.allocateAll b is := by
  unfold allocateAll
  rw [List.foldlM_cons]
  rfl

theorem allocateAll_append (s : Sram) (b : Nat) (is js : List Instruction) :
    s.allocateAll b (is ++ js) = (s.allocateAll b is).bind fun s => s.allocateAll b js := by
  unfold allocateAll
  rw [List.foldlM_append]
  rfl

/-- Instructions with different new destinations have room if all of their chunks do. -/
theorem allocateAll_isSome {is : List Instruction} (hdest : (is.map (·.destAddr)).Nodup)
    (hstore : ∀ i ∈ is, i.opcode ≠ .MOVOUT ∧ i.opcode ≠ .MOVOUT_POOL)
    (hnew : ∀ i ∈ is, s.checkAllocated i.destAddr b = false)
    (hroom : (s.currentSize b + (is.map (·.size)).sum) * s.dataWidth ≤ s.size) :
    ∃ s', s.allocateAll b is = some s' := by
  induction is generalizing s with
  | nil => exact ⟨s, rfl⟩
  | cons i is ih =>
    rw [List.map_cons, List.nodup_cons] at hdest
    rw [List.map_cons, List.sum_cons, ← Nat.add_assoc] at hroom
    have hfirst : (s.currentSize b + i.size) * s.dataWidth ≤ s.size :=
      (Nat.mul_le_mul_right _ (Nat.le_add_right _ _)).trans hroom
    obtain ⟨s₁, hs₁, hcurrent, hsize, hwidth, hallocated⟩ :=
      allocate_new (hstore i List.mem_cons_self) (hnew i List.mem_cons_self) hfirst
    rw [allocateAll_cons, hs₁]
    refine ih hdest.2 (fun j hj => hstore j (List.mem_cons_of_mem _ hj)) (fun j hj => ?_) ?_
    · rw [hallocated, hnew j (List.mem_cons_of_mem _ hj), Bool.or_false, decide_eq_false_iff_not]
      exact fun heq => hdest.1 (heq ▸ List.mem_map_of_mem hj)
    · rwa [hcurrent, hsize, hwidth]

theorem allocateAll_computes {is : List Instruction} (h : s.checkAllocated address b)
    (his : ∀ i ∈ is, i.opcode ≠ .MOVIN ∧ i.destAddr = address) :
    ∃ s', s.allocateAll b is = some s' ∧ s'.currentSize = s.currentSize := by
  induction is generalizing s with
  | nil => exact ⟨s, rfl, rfl⟩
  | cons i is ih =>
    obtain ⟨hopcode, hdest⟩ := his i List.mem_cons_self
    have hone : ∃ s₁, s.allocate b i = some s₁ ∧ s₁.currentSize = s.currentSize ∧
        s₁.checkAllocated address b := by
      unfold allocate
      split
      · contradiction
      · exact ⟨s, rfl, rfl, h⟩
      · exact ⟨s, rfl, rfl, h⟩
      · rw [hdest, if_pos h]
        exact countUp_allocated h
    obtain ⟨s₁, hs₁, hsize₁, h₁⟩ := hone
    obtain ⟨s', hs', hsize⟩ := ih h₁ fun j hj => his j (List.mem_cons_of_mem _ hj)
    refine ⟨s', ?_, hsize.trans hsize₁⟩
    rw [allocateAll_cons, hs₁]
    exact hs'

end Sram

/-! ## What a tile transfers -/

/-- The DRAM addresses of the instructions with an opcode. -/
def Tile.transfers (t : Tile) (opcode : Opcode) : Set AddrType :=
  {a | ∃ i ∈ t.instructions, i.opcode = opcode ∧ a ∈ i.srcAddrs}

/-- The instruction moves no data. -/
def Instruction.Computes (i : Instruction) : Prop := i.opcode ≠ .MOVIN ∧ i.opcode ≠ .MOVOUT

section Transfers

open ElementwiseNode

variable {t : Tile} {loads computes : List Instruction} {destAddr : AddrType} {addrs : List AddrType}

theorem Tile.transfers_movin (h : t.instructions = loads ++ computes ++ [movout destAddr addrs])
    (hloads : ∀ i ∈ loads, i.opcode = .MOVIN) (hcomputes : ∀ i ∈ computes, i.Computes) :
    t.transfers .MOVIN = {a | ∃ i ∈ loads, a ∈ i.srcAddrs} := by
  ext a
  unfold transfers
  rw [h]
  constructor
  · rintro ⟨i, hi, hopcode, ha⟩
    rcases List.mem_append.mp hi with hi | hi
    · rcases List.mem_append.mp hi with hi | hi
      · exact ⟨i, hi, ha⟩
      · exact absurd hopcode (hcomputes i hi).1
    · obtain rfl := List.mem_singleton.mp hi
      cases hopcode
  · rintro ⟨i, hi, ha⟩
    exact ⟨i, List.mem_append_left _ (List.mem_append_left _ hi), hloads i hi, ha⟩

theorem Tile.transfers_movout (h : t.instructions = loads ++ computes ++ [movout destAddr addrs])
    (hloads : ∀ i ∈ loads, i.opcode = .MOVIN) (hcomputes : ∀ i ∈ computes, i.Computes) :
    t.transfers .MOVOUT = {a | a ∈ addrs} := by
  ext a
  unfold transfers
  rw [h]
  constructor
  · rintro ⟨i, hi, hopcode, ha⟩
    rcases List.mem_append.mp hi with hi | hi
    · rcases List.mem_append.mp hi with hi | hi
      · rw [hloads i hi] at hopcode
        cases hopcode
      · exact absurd hopcode (hcomputes i hi).2
    · obtain rfl := List.mem_singleton.mp hi
      exact ha
  · exact fun ha => ⟨_, List.mem_append_right _ List.mem_cons_self, rfl, ha⟩

end Transfers

/-! ## Chunks -/

section Chunks

open ElementwiseNode

variable {base a : AddrType} {rows perTile rowBytes req : Nat}

theorem mem_chunkAddrs {baseOff : Nat} {offs : List Nat} :
    a ∈ chunkAddrs base baseOff offs ↔ ∃ off ∈ offs, a = base + word baseOff + word off := by
  unfold chunkAddrs
  rw [mem_addrSet, List.mem_map]
  exact exists_congr fun off => and_congr_right fun _ => eq_comm

theorem add_word_word {m n : Nat} (h : m + n < 2 ^ 32) :
    base + word m + word n = base + BitVec.ofNat 64 (m + n) := by
  unfold word
  rw [Nat.mod_eq_of_lt (by omega), Nat.mod_eq_of_lt (by omega), add_assoc, ← BitVec.ofNat_add]

/-- The bytes of a tile are those of the strip of the operand up to the next tile. -/
theorem tileBytes_eq (o : Nat) : min (rows - o) perTile * rowBytes =
    min (rows * rowBytes - o * rowBytes) (perTile * rowBytes) := by
  rw [← Nat.sub_mul, Nat.mul_min_mul_right]

/-- The chunks of a tile, where no byte offset wraps. -/
theorem mem_tileChunks {o : Nat} (ho : o < rows) (hreq : 0 < req)
    (hfit : rows * rowBytes + perTile * rowBytes ≤ 2 ^ 32) :
    a ∈ chunkAddrs base (o * rowBytes)
        (steps (wrap (min (rows - o) perTile * rowBytes)) req) ↔
      ∃ j, j * req < min (rows * rowBytes - o * rowBytes) (perTile * rowBytes) ∧
        a = base + BitVec.ofNat 64 (o * rowBytes + j * req) := by
  rw [mem_chunkAddrs, tileBytes_eq]
  rcases Nat.eq_zero_or_pos rowBytes with rfl | hpos
  · simp [wrap, steps, Nat.div_eq_of_lt (Nat.sub_lt hreq Nat.zero_lt_one)]
  have hmul : o * rowBytes < rows * rowBytes := Nat.mul_lt_mul_of_pos_right ho hpos
  have hbytes : wrap (min (rows * rowBytes - o * rowBytes) (perTile * rowBytes)) =
      min (rows * rowBytes - o * rowBytes) (perTile * rowBytes) := by
    by_cases hlt : min (rows * rowBytes - o * rowBytes) (perTile * rowBytes) < 2 ^ 32
    · exact wrap_of_lt hlt
    · omega
  rw [hbytes]
  constructor
  · rintro ⟨off, hoff, rfl⟩
    obtain ⟨hlt, j, rfl⟩ := (mem_steps hreq).mp hoff
    rw [Nat.mul_comm req j] at hlt ⊢
    exact ⟨j, hlt, add_word_word (m := o * rowBytes) (n := j * req) (by omega)⟩
  · rintro ⟨j, hj, rfl⟩
    exact ⟨j * req, (mem_steps hreq).mpr ⟨hj, Nat.dvd_mul_left _ _⟩,
      (add_word_word (m := o * rowBytes) (n := j * req) (by omega)).symm⟩

/-- The chunks of all tiles are the samples of the strip of the operand. -/
theorem exists_tileChunk_iff (hper : 0 < perTile) (hrow : 0 < rowBytes) (hreq : 0 < req)
    (hfit : rows * rowBytes + perTile * rowBytes ≤ 2 ^ 32) :
    (∃ o ∈ steps rows perTile, a ∈ chunkAddrs base (o * rowBytes)
        (steps (wrap (min (rows - o) perTile * rowBytes)) req)) ↔
      ∃ m, Strips.Place (rows * rowBytes) (perTile * rowBytes) req m ∧
        a = base + BitVec.ofNat 64 m := by
  have htile := Nat.mul_pos hper hrow
  constructor
  · rintro ⟨o, ho, hmem⟩
    obtain ⟨hlt, i, rfl⟩ := (mem_steps hper).mp ho
    obtain ⟨j, hj, rfl⟩ := (mem_tileChunks hlt hreq hfit).mp hmem
    have hstart : perTile * i * rowBytes = i * (perTile * rowBytes) := by
      rw [Nat.mul_comm perTile, Nat.mul_assoc]
    have hin : perTile * i * rowBytes < rows * rowBytes := Nat.mul_lt_mul_of_pos_right hlt hrow
    rw [hstart] at hj hin ⊢
    exact ⟨_, (Strips.place_iff_tile htile).mpr ⟨i, hin, j, hj, rfl⟩, rfl⟩
  · rintro ⟨m, hm, rfl⟩
    obtain ⟨i, hi, j, hj, rfl⟩ := (Strips.place_iff_tile htile).mp hm
    rw [← Nat.mul_assoc] at hi hj ⊢
    have hlt : i * perTile < rows := Nat.lt_of_mul_lt_mul_right hi
    exact ⟨i * perTile, (mem_steps hper).mpr ⟨hlt, Nat.dvd_mul_left _ _⟩,
      (mem_tileChunks hlt hreq hfit).mpr ⟨j, hj, rfl⟩⟩

/-- A set has as many chunks as its loop has turns. -/
theorem length_chunkAddrs {baseOff bound : Nat} (hreq : 0 < req) (hbound : bound ≤ 2 ^ 32) :
    (chunkAddrs base baseOff (steps bound req)).length = Counters.turns bound req := by
  have hnodup : ((steps bound req).map fun off => base + word baseOff + word off).Nodup := by
    refine List.Nodup.map_on ?_ ?_
    · intro x hx y hy heq
      have hxlt := ((mem_steps hreq).mp hx).1
      have hylt := ((mem_steps hreq).mp hy).1
      have hoff := Spans.add_ofNat_inj (by omega) (by omega) heq
      rwa [Nat.mod_eq_of_lt (by omega), Nat.mod_eq_of_lt (by omega)] at hoff
    · unfold steps
      exact List.nodup_range.map fun i j heq => Nat.eq_of_mul_eq_mul_right hreq heq
  unfold chunkAddrs addrSet
  rw [List.length_insertionSort, List.Nodup.dedup hnodup, List.length_map, length_steps]

end Chunks

end OnnxSim
