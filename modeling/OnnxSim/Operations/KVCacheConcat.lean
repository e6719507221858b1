import OnnxSim.Language.Scheduler
import OnnxSim.Lib.Ragged
import OnnxSim.Operations.Elementwise

/-!
# Appending to the caches

`KVCacheConcat` appends the keys and values of a batch of tokens to the caches of their requests. Its tiles
are not run, but they say which chunks each token would be written to. The loop of a tile has no end of its
own: a tile goes on to the last token of the batch, and it counts requests and rows from the first request
on, wherever it starts. A row is written behind the end of the key cache as `define_tensor` has made it, and
the values go to the addresses of the keys.
-/

namespace OnnxSim

/-- A cache of a request, of the shape `length :: rest`. -/
structure CacheTensor where
  length : Nat
  rest : List Nat
  address : AddrType
  deriving Repr, DecidableEq

/-- A tensor after `define_tensor`. -/
structure DefinedTensor where
  dims : List Nat
  address : AddrType
  size : AddrType
  deriving Repr, DecidableEq

namespace DefinedTensor

/-- `Tensor::define_tensor`. -/
def define (precision : Nat) (address : AddrType) (dims : List Nat) : DefinedTensor where
  dims := dims
  address := address
  size := dims.foldl (fun size dim => size * signedWord dim) (BitVec.ofNat 64 precision)

/-- The addresses from `get_address` up to `get_address + get_size`. -/
def region (t : DefinedTensor) : Set AddrType := Spans.Span t.address t.size.toNat

end DefinedTensor

/-- What a `KVCacheConcat` has for each request. -/
structure CacheRequest where
  inputTokenLength : Nat
  key : CacheTensor
  value : CacheTensor
  deriving Repr, DecidableEq

/-- A `KVCacheConcat` after its constructor, which divides by the number of heads. -/
structure KVCacheConcatOp where
  config : SimulationConfig
  id : Nat
  targetCore : Nat := 0
  numKvHeads : Nat
  numAttentionHeads : Nat
  hiddenSize : Nat
  /-- `get_input(0)`. -/
  qkv : Operand
  requests : List CacheRequest
  /-- The address of `get_output(0)`. -/
  queryOutAddress : AddrType
  heads_pos : 0 < numAttentionHeads

namespace KVCacheConcatOp

/-- `currenet_batch` and `current_index`. -/
structure Cursor where
  currentBatch : Nat := 0
  currentIndex : Nat := 0
  deriving Repr, DecidableEq

/-- What the loop inserts for a token, into the sets of the tile and those of a request. -/
structure TokenWrite where
  tokenId : Nat
  batch : Nat
  movin : List AddrType
  query : List AddrType
  key : List AddrType
  value : List AddrType
  deriving Repr, DecidableEq

/-- The batch switch at the end of a turn. -/
def Cursor.next (c : Cursor) (inputTokenLength : Nat) : Cursor :=
  if inputTokenLength ≤ c.currentIndex then
    { currentBatch := c.currentBatch + 1, currentIndex := 1 }
  else { c with currentIndex := c.currentIndex + 1 }

variable (op : KVCacheConcatOp)

def cacheDim : Nat := wrap (op.hiddenSize / op.numAttentionHeads * op.numKvHeads)

def perTokenSize : Nat := wrap (op.config.precision * (op.cacheDim * 2 + op.hiddenSize))

/-- `spad_size KB / 2`. -/
def halfSpad : Nat := wrap ((op.config.coreConfig op.targetCore).spadSize * 1024) / 2

/-- `_outter_loops`. -/
def outterLoops : Nat := ceilDiv (wrap op.qkv.size) op.halfSpad

/-- `_inner_loops`. -/
def innerLoops : Nat := ceilDiv op.halfSpad op.perTokenSize

/-- The key cache of a request with its new tokens. -/
def keyOut (r : CacheRequest) : DefinedTensor :=
  .define op.config.precision r.key.address (wrap (r.key.length + r.inputTokenLength) :: r.key.rest)

/-- The value cache of a request with its new tokens. -/
def valueOut (r : CacheRequest) : DefinedTensor :=
  .define op.config.precision r.value.address
    (wrap (r.value.length + r.inputTokenLength) :: r.value.rest)

/-- `for (offset = 0; offset < bytes; offset += dram_req_size)`, with what it inserts. -/
def chunksFrom (addr : AddrType) (bytes : Nat) : Option (List AddrType) :=
  if bytes = 0 then some []
  else if op.config.dramReqSize = 0 then none
  else some ((steps bytes op.config.dramReqSize).map fun offset =>
    op.config.alignAddress (addr + BitVec.ofNat 64 offset))

/-- A turn of the loop of a tile. A request that does not exist has no outputs. -/
def emit (c : Cursor) (tokenId : Nat) : Option (TokenWrite × Cursor) := do
  let r ← op.requests[c.currentBatch]?
  let keyCache := op.keyOut r
  let qkvOutAddr := op.qkv.address + word (tokenId * op.perTokenSize)
  let queryOutAddr := op.queryOutAddress + word (tokenId * op.hiddenSize * op.config.precision)
  let keyOutAddress := keyCache.address + keyCache.size +
    word (c.currentIndex * op.cacheDim * op.config.precision)
  let valueOutAddress := keyCache.address + keyCache.size +
    word (c.currentIndex * op.cacheDim * op.config.precision)
  let movin ← op.chunksFrom qkvOutAddr op.perTokenSize
  let query ← op.chunksFrom queryOutAddr (wrap (op.hiddenSize * op.config.precision))
  let key ← op.chunksFrom keyOutAddress (wrap (op.cacheDim * op.config.precision))
  let value ← op.chunksFrom valueOutAddress (wrap (op.cacheDim * op.config.precision))
  some ({ tokenId, batch := c.currentBatch, movin, query, key, value }, c.next r.inputTokenLength)

/-- The loop over the tokens of a tile. -/
def emitAll : Cursor → List Nat → Option (List TokenWrite)
  | _, [] => some []
  | c, tokenId :: rest => do
    let (w, c) ← op.emit c tokenId
    let ws ← emitAll c rest
    some (w :: ws)

/-- The tokens of `for (inner = 0; _inner_loops; inner++)`: it ends at the first one that the batch does not
have. -/
def tileTokens (tokens idx : Nat) : List Nat :=
  List.range' (wrap (idx * op.innerLoops)) (tokens - wrap (idx * op.innerLoops))

/-- The loop of `initialize_instructions`. -/
def tileWrites (idx : Nat) : Option (List TokenWrite) :=
  if op.innerLoops = 0 then some []
  else
    match op.qkv.dims with
    | [] => none
    | tokens :: _ => op.emitAll {} (op.tileTokens tokens idx)

/-- The sets of addresses, as instructions. -/
def program (ws : List TokenWrite) : List Instruction :=
  let batches := List.range op.requests.length
  [ElementwiseNode.movin SPAD_BASE (addrSet (ws.flatMap (·.movin))) INPUT_OPERAND,
    ElementwiseNode.movout SPAD_BASE (addrSet (ws.flatMap (·.query)))] ++
    batches.map (fun b =>
      ElementwiseNode.movout SPAD_BASE (addrSet ((ws.filter (·.batch = b)).flatMap (·.key)))) ++
    batches.map (fun b =>
      ElementwiseNode.movout SPAD_BASE (addrSet ((ws.filter (·.batch = b)).flatMap (·.value))))

def tileOf (ws : List TokenWrite) : Tile where
  status := .INITIALIZED
  layerId := op.id
  skip := true
  instructions := op.program ws

/-- What the loops of all tiles insert. -/
def allWrites : Option (List (List TokenWrite)) := (List.range op.outterLoops).mapM op.tileWrites

/-- `initialize_tiles`. -/
def initializeTiles : Option (List Tile) := op.allWrites.map (·.map op.tileOf)

/-- `_input_token_lengths`. -/
def inputTokenLengths : List Nat := op.requests.map (·.inputTokenLength)

/-- The lengths and the shapes, which are all that the scheduling of a language model reads. -/
def shapes : KVCacheConcat where
  inputTokenLengths := op.inputTokenLengths
  keyCache := op.requests.map fun r => r.key.length :: r.key.rest
  valueCache := op.requests.map fun r => r.value.length :: r.value.rest

theorem zipWith_growDims (requests : List CacheRequest) (cache : CacheRequest → CacheTensor)
    (h : ∀ r ∈ requests, (cache r).length + r.inputTokenLength < 2 ^ 32) :
    List.zipWith growDims (requests.map fun r => (cache r).length :: (cache r).rest)
        (requests.map (·.inputTokenLength)) =
      requests.map fun r => wrap ((cache r).length + r.inputTokenLength) :: (cache r).rest := by
  rw [List.zipWith_map, List.zipWith_self]
  refine List.map_congr_left fun r hr => ?_
  rw [wrap_of_lt (h r hr)]
  rfl

/-- While the lengths fit in 32 bits, the outputs have the shapes that the scheduling reads. -/
theorem keyOutputs_shapes (h : ∀ r ∈ op.requests, r.key.length + r.inputTokenLength < 2 ^ 32) :
    op.shapes.keyOutputs = op.requests.map fun r => (op.keyOut r).dims :=
  zipWith_growDims op.requests (·.key) h

theorem valueOutputs_shapes (h : ∀ r ∈ op.requests, r.value.length + r.inputTokenLength < 2 ^ 32) :
    op.shapes.valueOutputs = op.requests.map fun r => (op.valueOut r).dims :=
  zipWith_growDims op.requests (·.value) h

/-! ## The cursor -/

/-- The cursor of a tile after so many turns. -/
def cursorAt : Nat → Cursor
  | 0 => {}
  | n + 1 => (cursorAt n).next (op.inputTokenLengths.getD (cursorAt n).currentBatch 0)

variable {op} {n : Nat}

/-- The rows up to the cursor are no more than the turns. -/
theorem start_cursorAt_le (n : Nat) :
    Ragged.start op.inputTokenLengths (op.cursorAt n).currentBatch + (op.cursorAt n).currentIndex ≤ n := by
  induction n with
  | zero => exact Nat.le_refl 0
  | succ n ih =>
    unfold cursorAt Cursor.next
    split
    · simp only [Ragged.start_succ]
      omega
    · simp only
      omega

/-- A tile has no more turns than there are tokens, so the cursor stays on a request. -/
theorem cursorAt_lt (h : n < op.inputTokenLengths.sum) :
    (op.cursorAt n).currentBatch < op.requests.length := by
  have hle : Ragged.start op.inputTokenLengths (op.cursorAt n).currentBatch +
      (op.cursorAt n).currentIndex ≤ n := start_cursorAt_le n
  have hlt : (op.cursorAt n).currentBatch < op.inputTokenLengths.length :=
    Ragged.lt_length_of_start_lt (by omega)
  rwa [inputTokenLengths, List.length_map] at hlt

/-- What holds of the cursor, if every request has tokens: it is on the row with the number of the turn, or
behind the last row of a request where the first one of the next would be. -/
structure CursorOn (op : KVCacheConcatOp) (n : Nat) (c : Cursor) : Prop where
  turn : Ragged.start op.inputTokenLengths c.currentBatch + c.currentIndex = n
  le : c.currentIndex ≤ op.inputTokenLengths.getD c.currentBatch 0
  late : c.currentBatch = 0 ∨ 1 ≤ c.currentIndex

theorem cursorOn_cursorAt (hpos : ∀ len ∈ op.inputTokenLengths, 0 < len)
    (h : n < op.inputTokenLengths.sum) : CursorOn op n (op.cursorAt n) := by
  induction n with
  | zero => exact ⟨rfl, Nat.zero_le _, .inl rfl⟩
  | succ n ih =>
    obtain ⟨hturn, hle, hlate⟩ := ih (by omega)
    unfold cursorAt Cursor.next
    split
    · have hstart := Ragged.start_succ op.inputTokenLengths (op.cursorAt n).currentBatch
      have hnext := Ragged.getD_pos (b := (op.cursorAt n).currentBatch + 1) hpos (by omega)
      exact ⟨by simp only; omega, hnext, .inr (Nat.le_refl 1)⟩
    · exact ⟨by simp only; omega, by simp only; omega, .inr (Nat.le_add_left 1 _)⟩

/-- The batch switch comes a row late: in a tile that starts with the first token, the first row of each
request but the first is taken for one more row of the request before. The other rows are where they
belong. -/
theorem cursorAt_row {b j : Nat} (hpos : ∀ len ∈ op.inputTokenLengths, 0 < len)
    (hj : j < op.inputTokenLengths.getD b 0) :
    op.cursorAt (Ragged.start op.inputTokenLengths b + j) =
      if b ≠ 0 ∧ j = 0 then
        { currentBatch := b - 1, currentIndex := op.inputTokenLengths.getD (b - 1) 0 }
      else { currentBatch := b, currentIndex := j } := by
  obtain ⟨hturn, hle, hlate⟩ := cursorOn_cursorAt hpos (Ragged.start_add_lt_sum hj)
  generalize op.cursorAt (Ragged.start op.inputTokenLengths b + j) = c at hturn hle hlate
  obtain ⟨c, i⟩ := c
  simp only at hturn hle hlate
  rcases Nat.lt_trichotomy c b with hlt | rfl | hlt
  · have hend := Ragged.start_add_le op.inputTokenLengths hlt
    -- the row of the cursor ends where row `b` starts, and there is none between
    have hlast : c = b - 1 := by
      by_contra hne
      have hbetween := Ragged.start_add_le op.inputTokenLengths (b := c + 1) (c := b) (by omega)
      rw [Ragged.start_succ] at hbetween
      have hsum := Ragged.start_add_lt_sum hj
      have hpositive : 0 < op.inputTokenLengths.getD (c + 1) 0 := by
        refine Ragged.getD_pos hpos ?_
        rw [Ragged.start_succ]
        omega
      omega
    rw [if_pos (by omega), ← hlast]
    congr 1
    omega
  · rw [if_neg (by omega)]
    congr 1
    omega
  · have hend := Ragged.start_add_le op.inputTokenLengths hlt
    omega

end KVCacheConcatOp

end OnnxSim
