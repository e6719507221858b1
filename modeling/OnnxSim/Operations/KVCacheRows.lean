import OnnxSim.Operations.KVCacheConcat

/-!
# The rows that are appended

What a token is meant to write is its row of the key cache and its row of the value cache of its request,
once (`KVCacheConcatOp.Appends`). The values are written where the keys are, so this holds of no batch with
something to write (`KVCacheConcatOp.appends_iff`). Nor are the rows written once: a tile after the first
writes the tokens from its start on again (`KVCacheConcatOp.countP_tokenId`).
-/

namespace OnnxSim

namespace KVCacheConcatOp

variable {op : KVCacheConcatOp} {c c' : Cursor} {w : TokenWrite} {ws : List TokenWrite} {n tokenId : Nat}

/-! ## A turn of the loop -/

@[simp] theorem chunksFrom_zero (addr : AddrType) : op.chunksFrom addr 0 = some [] := rfl

theorem exists_chunksFrom (hreq : 0 < op.config.dramReqSize) (addr : AddrType) (bytes : Nat) :
    ∃ chunks, op.chunksFrom addr bytes = some chunks := by
  unfold chunksFrom
  rw [if_neg hreq.ne']
  split
  · exact ⟨_, rfl⟩
  · exact ⟨_, rfl⟩

/-- The row at the cursor, counted from the end of the key cache. -/
def appendAddress (op : KVCacheConcatOp) (r : CacheRequest) (c : Cursor) : AddrType :=
  (op.keyOut r).address + (op.keyOut r).size + word (c.currentIndex * op.cacheDim * op.config.precision)

/-- What a turn writes for its token: the keys of a row behind the end of the key cache, and the values in
the same place. -/
theorem emit_cases (h : op.emit c tokenId = some (w, c')) :
    ∃ r, op.requests[c.currentBatch]? = some r ∧ c' = c.next r.inputTokenLength ∧
      w.tokenId = tokenId ∧ w.batch = c.currentBatch ∧
      op.chunksFrom (op.appendAddress r c) (wrap (op.cacheDim * op.config.precision)) = some w.key ∧
      w.value = w.key := by
  obtain ⟨r, hr, h⟩ := Option.bind_eq_some_iff.mp h
  obtain ⟨movin, -, h⟩ := Option.bind_eq_some_iff.mp h
  obtain ⟨query, -, h⟩ := Option.bind_eq_some_iff.mp h
  obtain ⟨key, hkey, h⟩ := Option.bind_eq_some_iff.mp h
  obtain ⟨value, hvalue, h⟩ := Option.bind_eq_some_iff.mp h
  obtain ⟨rfl, rfl⟩ := Prod.mk.inj (Option.some.inj h)
  exact ⟨r, hr, rfl, rfl, rfl, hkey, Option.some.inj (hvalue.symm.trans hkey)⟩

theorem exists_emit (hreq : 0 < op.config.dramReqSize) (hbatch : c.currentBatch < op.requests.length)
    (tokenId : Nat) : ∃ p, op.emit c tokenId = some p := by
  unfold emit
  obtain ⟨movin, hmovin⟩ := exists_chunksFrom hreq
    (op.qkv.address + word (tokenId * op.perTokenSize)) op.perTokenSize
  obtain ⟨query, hquery⟩ := exists_chunksFrom hreq
    (op.queryOutAddress + word (tokenId * op.hiddenSize * op.config.precision))
    (wrap (op.hiddenSize * op.config.precision))
  obtain ⟨key, hkey⟩ := exists_chunksFrom hreq (op.appendAddress op.requests[c.currentBatch] c)
    (wrap (op.cacheDim * op.config.precision))
  unfold appendAddress at hkey
  rw [List.getElem?_eq_getElem hbatch]
  simp only [Option.bind_eq_bind, Option.bind_some, hmovin, hquery, hkey]
  exact ⟨_, rfl⟩

/-- Where the key cache ends with a whole chunk, no chunk of a turn is inside it. -/
theorem not_mem_region_of_append {r : CacheRequest} {bytes : Nat} {chunks : List AddrType}
    (hreq : op.config.dramReqSize < 2 ^ 32) (hbytes : bytes < 2 ^ 32)
    (hend : op.config.dramReqSize ∣ (op.keyOut r).address.toNat + (op.keyOut r).size.toNat)
    (hfit : (op.keyOut r).address.toNat + (op.keyOut r).size.toNat + 2 ^ 33 ≤ 2 ^ 64)
    (h : op.chunksFrom (op.appendAddress r c) bytes = some chunks) :
    ∀ a ∈ chunks, a ∉ (op.keyOut r).region := by
  intro a ha
  unfold chunksFrom at h
  split at h
  · obtain rfl := Option.some.inj h
    cases ha
  split at h
  · cases h
  rename_i hreqpos
  obtain rfl := Option.some.inj h
  obtain ⟨offset, hoffset, rfl⟩ := List.mem_map.mp ha
  have hlt := ((mem_steps (Nat.pos_of_ne_zero hreqpos)).mp hoffset).1
  have hindex := Nat.mod_lt (c.currentIndex * op.cacheDim * op.config.precision) (Nat.two_pow_pos 32)
  unfold appendAddress word DefinedTensor.region
  generalize c.currentIndex * op.cacheDim * op.config.precision % 2 ^ 32 = index at hindex
  generalize (op.keyOut r).address = address at hend hfit
  generalize (op.keyOut r).size = size at hend hfit
  -- as a natural number the address of the chunk is not below the end of the tensor
  have hsum : address + size + BitVec.ofNat 64 index + BitVec.ofNat 64 offset =
      BitVec.ofNat 64 (address.toNat + size.toNat + index + offset) := by
    simp only [BitVec.ofNat_add, BitVec.ofNat_toNat, BitVec.setWidth_eq]
  rw [hsum, op.config.alignAddress_ofNat (by omega) (by omega)]
  have hbelow := Nat.div_mul_le_self (address.toNat + size.toNat + index + offset)
    op.config.dramReqSize
  have habove : address.toNat + size.toNat ≤ (address.toNat + size.toNat + index + offset) /
      op.config.dramReqSize * op.config.dramReqSize := by
    calc address.toNat + size.toNat
        = (address.toNat + size.toNat) / op.config.dramReqSize * op.config.dramReqSize :=
          (Nat.div_mul_cancel hend).symm
      _ ≤ _ := Nat.mul_le_mul_right _ (Nat.div_le_div_right (by omega))
  generalize (address.toNat + size.toNat + index + offset) / op.config.dramReqSize *
    op.config.dramReqSize = chunk at hbelow habove
  intro hmem
  have hdist : (BitVec.ofNat 64 chunk - address).toNat < size.toNat := hmem
  rw [BitVec.toNat_sub_of_le (by rw [BitVec.le_def, BitVec.toNat_ofNat]; omega),
    BitVec.toNat_ofNat] at hdist
  omega

/-! ## The loop of a tile -/

theorem next_cursorAt {r : CacheRequest}
    (hr : op.requests[(op.cursorAt n).currentBatch]? = some r) :
    (op.cursorAt n).next r.inputTokenLength = op.cursorAt (n + 1) := by
  rw [cursorAt, List.getD_eq_getElem?_getD, inputTokenLengths, List.getElem?_map, hr]
  rfl

/-- Each turn writes a token, with the cursor of its number. -/
theorem emitAll_cases {tokens : List Nat} (h : op.emitAll (op.cursorAt n) tokens = some ws) :
    ws.map (·.tokenId) = tokens ∧ ∀ w ∈ ws, ∃ k < tokens.length, ∃ r,
      op.requests[(op.cursorAt (n + k)).currentBatch]? = some r ∧
      w.batch = (op.cursorAt (n + k)).currentBatch ∧ some w.tokenId = tokens[k]? ∧
      op.chunksFrom (op.appendAddress r (op.cursorAt (n + k)))
        (wrap (op.cacheDim * op.config.precision)) = some w.key ∧ w.value = w.key := by
  induction tokens generalizing n ws with
  | nil =>
    obtain rfl := Option.some.inj h
    exact ⟨rfl, fun w hw => (nomatch hw)⟩
  | cons tokenId rest ih =>
    obtain ⟨⟨w, c'⟩, hemit, h⟩ := Option.bind_eq_some_iff.mp h
    obtain ⟨ws, hws, h⟩ := Option.bind_eq_some_iff.mp h
    obtain rfl := Option.some.inj h
    obtain ⟨r, hr, rfl, htoken, hbatch, hkey, hvalue⟩ := emit_cases hemit
    rw [next_cursorAt hr] at hws
    obtain ⟨htokens, hall⟩ := ih hws
    refine ⟨by rw [List.map_cons, htokens, htoken], fun x hx => ?_⟩
    rcases List.mem_cons.mp hx with rfl | hx
    · exact ⟨0, Nat.succ_pos _, r, hr, hbatch, congrArg some htoken, hkey, hvalue⟩
    · obtain ⟨k, hk, hx⟩ := hall x hx
      refine ⟨k + 1, Nat.succ_lt_succ hk, ?_⟩
      rw [List.getElem?_cons_succ, Nat.add_comm k 1, ← Nat.add_assoc]
      exact hx

theorem exists_emitAll (hreq : 0 < op.config.dramReqSize) {tokens : List Nat}
    (hlen : n + tokens.length ≤ op.inputTokenLengths.sum) :
    ∃ ws, op.emitAll (op.cursorAt n) tokens = some ws := by
  induction tokens generalizing n with
  | nil => exact ⟨[], rfl⟩
  | cons tokenId rest ih =>
    rw [List.length_cons] at hlen
    have hbatch : (op.cursorAt n).currentBatch < op.requests.length := cursorAt_lt (by omega)
    obtain ⟨⟨w, c'⟩, hemit⟩ := exists_emit hreq hbatch tokenId
    obtain ⟨r, hr, rfl, -⟩ := emit_cases hemit
    obtain ⟨ws, hws⟩ := ih (n := n + 1) (by omega)
    refine ⟨w :: ws, ?_⟩
    rw [emitAll, hemit]
    simp only [Option.bind_eq_bind, Option.bind_some]
    rw [next_cursorAt hr, hws]
    rfl

/-- The operation is set up: the input has a row for each token of the requests. -/
structure Valid (op : KVCacheConcatOp) : Prop where
  req_pos : 0 < op.config.dramReqSize
  tokens : op.qkv.dims.head? = some op.inputTokenLengths.sum

/-- The loops come to their end. -/
theorem Valid.exists_allWrites (h : op.Valid) : ∃ writes, op.allWrites = some writes := by
  refine Loops.exists_mapM fun idx _ => ?_
  unfold tileWrites
  split
  · exact ⟨[], rfl⟩
  · have htokens := h.tokens
    cases hdims : op.qkv.dims with
    | nil =>
      rw [hdims] at htokens
      cases htokens
    | cons tokens rest =>
      rw [hdims] at htokens
      obtain rfl := Option.some.inj htokens
      apply exists_emitAll (n := 0) h.req_pos
      unfold tileTokens
      rw [List.length_range']
      omega

/-! ## How often a token is written -/

variable {writes : List (List TokenWrite)} {tokens : Nat} {rest : List Nat}

theorem map_tokenId (hinner : op.innerLoops ≠ 0) (hdims : op.qkv.dims = tokens :: rest) {idx : Nat}
    (h : op.tileWrites idx = some ws) : ws.map (·.tokenId) = op.tileTokens tokens idx := by
  unfold tileWrites at h
  rw [if_neg hinner, hdims] at h
  exact (emitAll_cases (n := 0) h).1

/-- A token is written by each tile that starts at it or before. -/
theorem countP_tokenId (hinner : op.innerLoops ≠ 0) (hdims : op.qkv.dims = tokens :: rest)
    (h : op.allWrites = some writes) (htoken : tokenId < tokens) :
    (writes.flatten.map (·.tokenId)).count tokenId =
      (List.range op.outterLoops).countP fun idx => wrap (idx * op.innerLoops) ≤ tokenId := by
  have hall := Loops.forall₂_of_mapM h
  clear h
  generalize List.range op.outterLoops = tiles at hall
  induction hall with
  | nil => rfl
  | @cons idx ws tiles writes hws _ ih =>
    rw [List.flatten_cons, List.map_append, List.count_append, map_tokenId hinner hdims hws, ih,
      List.countP_cons, Nat.add_comm]
    congr 1
    unfold tileTokens
    rw [List.count_range_1']
    by_cases hstart : wrap (idx * op.innerLoops) ≤ tokenId
    · simp [hstart]
      omega
    · simp [hstart]

/-! ## What a tile stores -/

theorem mem_batchSet {b : Nat} {part : TokenWrite → List AddrType} {a : AddrType} :
    a ∈ addrSet ((ws.filter (·.batch = b)).flatMap part) ↔ ∃ w ∈ ws, w.batch = b ∧ a ∈ part w := by
  simp only [mem_addrSet, List.mem_flatMap, List.mem_filter, decide_eq_true_eq, and_assoc]

/-- The stores of a tile are the queries, keys and values of its tokens. -/
theorem transfers_movout (op : KVCacheConcatOp) (ws : List TokenWrite) :
    (op.tileOf ws).transfers .MOVOUT = {a | ∃ w ∈ ws, a ∈ w.query ∨
      w.batch < op.requests.length ∧ (a ∈ w.key ∨ a ∈ w.value)} := by
  ext a
  constructor
  · rintro ⟨i, hi, hopcode, ha⟩
    rcases List.mem_append.mp hi with hi | hi
    · rcases List.mem_append.mp hi with hi | hi
      · rcases List.mem_cons.mp hi with rfl | hi
        · cases hopcode
        · obtain rfl := List.mem_singleton.mp hi
          obtain ⟨w, hw, ha⟩ := List.mem_flatMap.mp (mem_addrSet.mp ha)
          exact ⟨w, hw, .inl ha⟩
      · obtain ⟨b, hb, rfl⟩ := List.mem_map.mp hi
        obtain ⟨w, hw, rfl, hkey⟩ := mem_batchSet.mp ha
        exact ⟨w, hw, .inr ⟨List.mem_range.mp hb, .inl hkey⟩⟩
    · obtain ⟨b, hb, rfl⟩ := List.mem_map.mp hi
      obtain ⟨w, hw, rfl, hvalue⟩ := mem_batchSet.mp ha
      exact ⟨w, hw, .inr ⟨List.mem_range.mp hb, .inr hvalue⟩⟩
  · rintro ⟨w, hw, ha | ⟨hbatch, ha | ha⟩⟩
    · refine ⟨_, List.mem_append_left _ (List.mem_append_left _ (List.mem_cons_of_mem _
        List.mem_cons_self)), rfl, mem_addrSet.mpr ?_⟩
      exact List.mem_flatMap.mpr ⟨w, hw, ha⟩
    · exact ⟨_, List.mem_append_left _ (List.mem_append_right _ (List.mem_map_of_mem
        (List.mem_range.mpr hbatch))), rfl, mem_batchSet.mpr ⟨w, hw, rfl, ha⟩⟩
    · exact ⟨_, List.mem_append_right _ (List.mem_map_of_mem (List.mem_range.mpr hbatch)), rfl,
        mem_batchSet.mpr ⟨w, hw, rfl, ha⟩⟩

/-! ## What a token is meant to write -/

/-- The chunks with the bytes of a row of a cache. -/
def rowChunks (op : KVCacheConcatOp) (cache : CacheTensor) (row : Nat) : Set AddrType :=
  {a | ∃ x < op.cacheDim * op.config.precision, a = op.config.alignAddress
    (cache.address + BitVec.ofNat 64 (row * (op.cacheDim * op.config.precision) + x))}

/-- The writes `part` of a token are the chunks of a row, each once, and inside a tensor. -/
structure WritesRow (writes : List TokenWrite) (tokenId : Nat) (part : TokenWrite → List AddrType)
    (chunks region : Set AddrType) : Prop where
  once : ∀ a ∈ chunks, writes.countP (fun w => w.tokenId = tokenId ∧ a ∈ part w) = 1
  only : ∀ w ∈ writes, w.tokenId = tokenId → ∀ a ∈ part w, a ∈ chunks
  inside : ∀ w ∈ writes, w.tokenId = tokenId → ∀ a ∈ part w, a ∈ region

/-- A token writes nothing to the caches of a request. -/
def Spares (op : KVCacheConcatOp) (writes : List TokenWrite) (tokenId : Nat) (r : CacheRequest) : Prop :=
  ∀ w ∈ writes, w.tokenId = tokenId → ∀ a ∈ w.key ++ w.value,
    a ∉ (op.keyOut r).region ∧ a ∉ (op.valueOut r).region

/-- Every token appends its row to the caches of its request, and writes to no others: row `j` of request `b`
is the token after those of the requests before and `j` of its own. -/
def Appends (op : KVCacheConcatOp) (writes : List TokenWrite) : Prop :=
  ∀ b r, op.requests[b]? = some r → ∀ j < r.inputTokenLength,
    WritesRow writes (Ragged.start op.inputTokenLengths b + j) (·.key)
      (op.rowChunks r.key (r.key.length + j)) (op.keyOut r).region ∧
    WritesRow writes (Ragged.start op.inputTokenLengths b + j) (·.value)
      (op.rowChunks r.value (r.value.length + j)) (op.valueOut r).region ∧
    ∀ b' r', op.requests[b']? = some r' → b' ≠ b →
      op.Spares writes (Ragged.start op.inputTokenLengths b + j) r'

/-- The keys and the values of a request are in different places. -/
def Apart (op : KVCacheConcatOp) : Prop :=
  ∀ r ∈ op.requests, Disjoint (op.keyOut r).region (op.valueOut r).region

/-- Every write of a tile has its values where its keys are, and is empty if a row has no bytes. -/
theorem value_eq_key (h : op.allWrites = some writes) (hw : w ∈ writes.flatten) :
    w.value = w.key ∧ (op.cacheDim * op.config.precision = 0 → w.key = []) := by
  obtain ⟨ws, hws, hw⟩ := List.mem_flatten.mp hw
  obtain ⟨idx, -, hidx⟩ := Loops.exists_of_mem h hws
  unfold tileWrites at hidx
  split at hidx
  · obtain rfl := Option.some.inj hidx
    cases hw
  · split at hidx
    · cases hidx
    · obtain ⟨-, hall⟩ := emitAll_cases (n := 0) hidx
      obtain ⟨k, -, r, -, -, -, hkey, hvalue⟩ := hall w hw
      refine ⟨hvalue, fun hzero => ?_⟩
      rw [hzero] at hkey
      exact (Option.some.inj hkey).symm

/-- The batch is appended exactly if there is nothing to append. -/
theorem appends_iff (hvalid : op.Valid) (hapart : op.Apart) :
    ∃ writes, op.allWrites = some writes ∧ (op.Appends writes.flatten ↔
      op.cacheDim * op.config.precision = 0 ∨ ∀ r ∈ op.requests, r.inputTokenLength = 0) := by
  obtain ⟨writes, hwrites⟩ := hvalid.exists_allWrites
  refine ⟨writes, hwrites, fun happends => ?_, ?_⟩
  · by_contra hsome
    obtain ⟨hbytes, htokens⟩ := not_or.mp hsome
    push Not at htokens
    obtain ⟨r, hr, hlength⟩ := htokens
    obtain ⟨b, hb⟩ := List.mem_iff_getElem?.mp hr
    obtain ⟨hkey, hvalue, -⟩ := happends b r hb 0 (Nat.pos_of_ne_zero hlength)
    -- the first chunk of the row is written as a key, so it is written as a value too
    have honce := hkey.once _ ⟨0, Nat.pos_of_ne_zero hbytes, rfl⟩
    obtain ⟨w, hw, hchunk⟩ := List.countP_pos_iff.mp (honce ▸ Nat.one_pos)
    obtain ⟨htoken, hmem⟩ := of_decide_eq_true hchunk
    have hplace := (value_eq_key hwrites hw).1
    refine Set.disjoint_left.mp (hapart r hr) (hkey.inside w hw htoken _ hmem) ?_
    exact hvalue.inside w hw htoken _ (hplace ▸ hmem)
  · rintro (hbytes | htokens) b r hr j hj
    · have hempty : ∀ w ∈ writes.flatten, w.key = [] ∧ w.value = [] := by
        intro w hw
        obtain ⟨hplace, hkey⟩ := value_eq_key hwrites hw
        exact ⟨hkey hbytes, hplace.trans (hkey hbytes)⟩
      have hnone : ∀ (part : TokenWrite → List AddrType) (cache : CacheTensor) (row : Nat)
          (region : Set AddrType), (∀ w ∈ writes.flatten, part w = []) →
          WritesRow writes.flatten (Ragged.start op.inputTokenLengths b + j) part
            (op.rowChunks cache row) region := by
        intro part cache row region hpart
        refine ⟨?_, ?_, ?_⟩
        · rintro a ⟨x, hx, -⟩
          omega
        · intro w hw _ a ha
          rw [hpart w hw] at ha
          cases ha
        · intro w hw _ a ha
          rw [hpart w hw] at ha
          cases ha
      refine ⟨hnone _ _ _ _ fun w hw => (hempty w hw).1, hnone _ _ _ _ fun w hw => (hempty w hw).2, ?_⟩
      intro b' r' _ _ w hw _ a ha
      rw [(hempty w hw).1, (hempty w hw).2] at ha
      cases ha
    · rw [htokens r (List.mem_of_getElem? hr)] at hj
      exact absurd hj (Nat.not_lt_zero j)

/-- A request of two tokens with a cache of four, and one of one token without a cache. A row has 32 bytes, as
many as a chunk. -/
def twoRequests : KVCacheConcatOp where
  config := {
    numCores := 1
    coreConfig := fun _ => { spadSize := 1 }
    dramChannels := 1
    dramReqSize := 32
    precision := 2 }
  id := 0
  numKvHeads := 1
  numAttentionHeads := 1
  hiddenSize := 16
  qkv := { dims := [3, 48], address := 0x1000, size := 288, size_lt := by decide }
  requests := [
    { inputTokenLength := 2, key := ⟨4, [16], 0x2000⟩, value := ⟨4, [16], 0x3000⟩ },
    { inputTokenLength := 1, key := ⟨0, [16], 0x4000⟩, value := ⟨0, [16], 0x5000⟩ }]
  queryOutAddress := 0x6000
  heads_pos := by decide

theorem appends_iff_twoRequests : ∃ writes, twoRequests.allWrites = some writes ∧
    (twoRequests.Appends writes.flatten ↔ twoRequests.cacheDim * twoRequests.config.precision = 0 ∨
      ∀ r ∈ twoRequests.requests, r.inputTokenLength = 0) := by
  refine appends_iff ⟨by decide, rfl⟩ fun r hr => ?_
  have hpos : 0 < (twoRequests.keyOut r).size.toNat ∧ 0 < (twoRequests.valueOut r).size.toNat := by
    revert r
    decide
  refine (Spans.disjoint_iff hpos.1 hpos.2).mpr ?_
  revert r
  decide

/-- The rows of the first request are written behind the six rows of its key cache, the values there as well,
and the row of the second request after them. -/
theorem not_appends : ∃ writes, twoRequests.allWrites = some writes ∧
    (writes.flatten.map fun w => (w.tokenId, w.batch, w.key, w.value)) =
      [(0, 0, [0x20c0], [0x20c0]), (1, 0, [0x20e0], [0x20e0]), (2, 0, [0x2100], [0x2100])] ∧
    ¬ twoRequests.Appends writes.flatten := by
  have hmap : (twoRequests.allWrites.map fun writes =>
      writes.flatten.map fun w => (w.tokenId, w.batch, w.key, w.value)) =
      some [(0, 0, [0x20c0], [0x20c0]), (1, 0, [0x20e0], [0x20e0]), (2, 0, [0x2100], [0x2100])] := by
    decide +kernel
  obtain ⟨writes, hwrites, hlist⟩ := Option.map_eq_some_iff.mp hmap
  refine ⟨writes, hwrites, hlist, fun happends => ?_⟩
  obtain ⟨hkey, -, -⟩ := happends 0 _ rfl 0 (by decide)
  -- row 4 of the first key cache is the chunk at 0x2080
  have honce := hkey.once 0x2080 ⟨0, by decide, by decide⟩
  obtain ⟨w, hw, hchunk⟩ := List.countP_pos_iff.mp (honce ▸ Nat.one_pos)
  have hmem : (w.tokenId, w.batch, w.key, w.value) ∈
      writes.flatten.map fun w => (w.tokenId, w.batch, w.key, w.value) := List.mem_map_of_mem hw
  have hchunk := (of_decide_eq_true hchunk).2
  rw [hlist] at hmem
  simp only [List.mem_cons, List.not_mem_nil, or_false, Prod.mk.injEq] at hmem
  rcases hmem with ⟨-, -, h, -⟩ | ⟨-, -, h, -⟩ | ⟨-, -, h, -⟩
  all_goals
    rw [h] at hchunk
    exact absurd hchunk (by decide)

end KVCacheConcatOp

end OnnxSim
