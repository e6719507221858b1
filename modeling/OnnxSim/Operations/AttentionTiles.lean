import OnnxSim.Lib.Blocks
import OnnxSim.Operations.Access
import OnnxSim.Operations.AttentionFit
import OnnxSim.Operations.AttentionInstructions

/-!
# The tiles of an attention

What `calculate_loops` gives (`Attention.Cut`), which accesses a tile makes, and when all tiles are
made: the number of query heads for a key head is at most the number of key heads, and no stored row
is out of range (`Attention.Cut.exists_tiles_iff`).
-/

namespace OnnxSim

namespace Attention

variable (op : Attention)

/-- The sizes of an attention: nothing is empty, and the indices of the tensors are words. -/
structure Sizes : Prop where
  nh_pos : 0 < op.nh
  nkvh_dvd : op.nkvh ∣ op.nh
  dk_pos : 0 < op.dk
  qLen_pos : 0 < op.qLen
  seq_pos : 0 < op.seq
  batchSize_pos : 0 < op.batchSize
  loopSize_pos : 0 < op.loopSize
  queries_lt : op.qLen * op.nh * op.dk < 2 ^ 32
  keys_lt : op.nkvh * op.seq * op.dk < 2 ^ 32
  seq_le : 2 * op.seq ≤ 2 ^ 32
  qLen_le : 2 * op.qLen ≤ 2 ^ 32
  divides : op.config.Divides

/-- The mapping cuts the queries into blocks of `qLen` and the keys into pieces. -/
structure Cut (mapping : Mapping) (qLen : Nat) : Prop where
  inner : mapping.tileInLoop.N = qLen * op.headsPerKv
  outer : mapping.tileOutLoop.N = ceilDiv op.qLen qLen * op.nkvh
  pieces : mapping.tileOutLoop.M = ceilDiv op.seq mapping.tileInLoop.M
  qLen_le : qLen ≤ op.qLen
  seqLen_le : mapping.tileInLoop.M ≤ op.seq
  one : qLen = 1 ∨ mapping.tileInLoop.M = op.seq

variable {op} {mapping : Mapping} {qLen : Nat}

theorem headsPerKv_le (op : Attention) : op.headsPerKv ≤ op.nh := Nat.div_le_self _ _

theorem queriesPerTile_le (hq : op.queriesPerTile = some qLen) : qLen ≤ op.qLen := by
  unfold queriesPerTile at hq
  split at hq
  · cases hq
  · obtain rfl := Option.some.inj hq
    omega

theorem tilesPerHead_lt (op : Attention) : op.tilesPerHead < 2 ^ 32 :=
  max_lt (ceilDiv_lt _ _) (ceilDiv_lt _ _)

namespace Sizes

variable (h : op.Sizes)
include h

theorem nkvh_pos : 0 < op.nkvh := Nat.pos_of_dvd_of_pos h.nkvh_dvd h.nh_pos

theorem nh_eq : op.nkvh * op.headsPerKv = op.nh := Nat.mul_div_cancel' h.nkvh_dvd

theorem headsPerKv_pos : 0 < op.headsPerKv :=
  Nat.div_pos (Nat.le_of_dvd h.nh_pos h.nkvh_dvd) h.nkvh_pos

theorem rows_lt : op.qLen * op.nh < 2 ^ 32 :=
  (Nat.le_mul_of_pos_right _ h.dk_pos).trans_lt h.queries_lt

theorem qLen_lt : op.qLen < 2 ^ 32 := (Nat.le_mul_of_pos_right _ h.nh_pos).trans_lt h.rows_lt

/-- The counts of the rows of a block of heads are words. -/
theorem mul_lt {a b : Nat} (ha : a ≤ op.qLen) (hb : b ≤ op.nh) : a * b < 2 ^ 32 :=
  (Nat.mul_le_mul ha hb).trans_lt h.rows_lt

theorem nkvh_le : op.nkvh ≤ op.nh := Nat.le_of_dvd h.nh_pos h.nkvh_dvd

theorem ceilDiv_seq_le {pieces : Nat} (hpieces : pieces < 2 ^ 32) :
    ceilDiv op.seq pieces ≤ op.seq := by
  have hseq := h.seq_pos
  have hle := h.seq_le
  rcases Nat.eq_zero_or_pos pieces with rfl | hpos
  · exact Nat.zero_le _
  · by_cases hsum : op.seq + pieces ≤ 2 ^ 32
    · exact ceilDiv_le hsum
    · have hzero := mt (ceilDiv_pos_iff hseq hpos (by omega) hpieces.le).mp hsum
      omega

theorem exists_cut (hmap : op.calculateLoops = some mapping) : ∃ qLen, op.Cut mapping qLen := by
  unfold calculateLoops at hmap
  rw [if_neg h.batchSize_pos.ne', if_neg h.nkvh_pos.ne'] at hmap
  obtain ⟨⟨qLen, seqLen, outer⟩, hlens, rfl⟩ := Option.map_eq_some_iff.mp hmap
  unfold tileLens at hlens
  split at hlens
  · simp only [Option.some.injEq, Prod.mk.injEq] at hlens
    obtain ⟨rfl, rfl, rfl⟩ := hlens
    have hone : ceilDiv op.qLen 1 = op.qLen := by
      unfold ceilDiv
      rw [if_neg (by decide), Nat.add_sub_cancel, Nat.div_one, wrap_of_lt h.qLen_lt]
    refine ⟨1, ?_, ?_, rfl, h.qLen_pos, h.ceilDiv_seq_le (tilesPerHead_lt op), .inl rfl⟩
    · exact wrap_of_lt (h.mul_lt h.qLen_pos (headsPerKv_le op))
    · rw [hone]
      exact wrap_of_lt (h.mul_lt (Nat.le_refl _) h.nkvh_le)
  · obtain ⟨q, hq, hlens⟩ := Option.map_eq_some_iff.mp hlens
    simp only [Prod.mk.injEq] at hlens
    obtain ⟨rfl, rfl, rfl⟩ := hlens
    have hle := queriesPerTile_le hq
    have hlen := h.qLen_le
    refine ⟨q, ?_, ?_, rfl, hle, Nat.le_refl _, .inr rfl⟩
    · exact wrap_of_lt (h.mul_lt hle (headsPerKv_le op))
    · exact wrap_of_lt (h.mul_lt (ceilDiv_le (by omega)) h.nkvh_le)

end Sizes

/-- A tile of the loops: its block of queries and its piece of keys are not empty, and its heads
are heads. -/
structure InLoops (op : Attention) (mapping : Mapping) (qLen n m : Nat) : Prop where
  qLen_pos : 0 < qLen
  seqLen_pos : 0 < blockSeqLen mapping
  offset_pos : 0 < op.qlenOffset mapping
  group_lt : n / op.qlenOffset mapping < op.nkvh
  row_lt : n % op.qlenOffset mapping * qLen < op.qLen
  key_lt : m * blockSeqLen mapping < op.seq

namespace Cut

variable (h : op.Cut mapping qLen) (hsizes : op.Sizes)
include h hsizes

theorem qlenOffset_eq : op.qlenOffset mapping = ceilDiv op.qLen qLen := by
  unfold qlenOffset
  rw [h.outer, Nat.mul_div_cancel _ hsizes.nkvh_pos]

theorem blockQLen_eq : blockQLen mapping op.headsPerKv = qLen := by
  unfold blockQLen
  rw [h.inner, Nat.mul_div_cancel _ hsizes.headsPerKv_pos]

theorem inLoops {n m : Nat} (hn : n < mapping.tileOutLoop.N) (hm : m < mapping.tileOutLoop.M) :
    InLoops op mapping qLen n m := by
  have hlen := hsizes.qLen_le
  have hseq := hsizes.seq_le
  have hq := h.qLen_le
  have hs := h.seqLen_le
  rw [h.outer] at hn
  rw [h.pieces] at hm
  have hqpos : 0 < qLen := by
    refine Nat.pos_of_ne_zero fun hzero => ?_
    rw [hzero, ceilDiv_zero, Nat.zero_mul] at hn
    omega
  have hspos : 0 < blockSeqLen mapping := by
    refine Nat.pos_of_ne_zero fun hzero => ?_
    unfold blockSeqLen at hzero
    rw [hzero, ceilDiv_zero] at hm
    omega
  have hkpos : 0 < ceilDiv op.qLen qLen := by
    refine Nat.pos_of_ne_zero fun hzero => ?_
    rw [hzero, Nat.zero_mul] at hn
    omega
  have hmod : n % ceilDiv op.qLen qLen < ceilDiv op.qLen qLen := Nat.mod_lt _ hkpos
  refine ⟨hqpos, hspos, ?_, ?_, ?_, ?_⟩
  · rw [h.qlenOffset_eq hsizes]
    exact hkpos
  · rw [h.qlenOffset_eq hsizes]
    exact Nat.div_lt_of_lt_mul hn
  · rw [h.qlenOffset_eq hsizes]
    exact (lt_ceilDiv_iff hqpos (by omega)).mp hmod
  · exact (lt_ceilDiv_iff hspos (by unfold blockSeqLen; omega)).mp hm

end Cut

/-! ## The accesses of a tile -/

/-- The addresses of elements that `make_address` gave. -/
theorem mem_addresses {α : Type} {node : Node} {elements : List α} {f : α → Option AddrType}
    {addrs : List AddrType} (haddrs : elements.mapM f = some addrs) (index : α → Nat)
    (hf : ∀ x ∈ elements, ∀ a, f x = some a → a = node.elementAddress (index x))
    {base a : AddrType} :
    a ∈ addrs.map (base + ·) ↔ ∃ x ∈ elements, a = base + node.elementAddress (index x) := by
  rw [List.mem_map]
  constructor
  · rintro ⟨b, hb, rfl⟩
    obtain ⟨x, hx, hfx⟩ := Loops.exists_of_mem haddrs hb
    exact ⟨x, hx, by rw [hf x hx b hfx]⟩
  · rintro ⟨x, hx, rfl⟩
    obtain ⟨b, hb⟩ := Loops.exists_mapM_iff.mp ⟨addrs, haddrs⟩ x hx
    exact ⟨b, (Loops.mem_iff_of_mapM haddrs).mpr ⟨x, hx, hb⟩, by rw [hf x hx b hb]⟩

variable {tile : Tile} {headIdx numHeads : Nat} {is : List Instruction}

theorem makeAddress_key {head s i : Nat} {a : AddrType} :
    op.makeAddress [head, s, i] op.keyShape = some a ↔ head < op.nkvh ∧ s < op.seq ∧ i < op.dk ∧
      a = op.elementAddress (head * (op.seq * op.dk) + s * op.dk + i) :=
  Node.makeAddress_three

theorem makeAddress_query {head s i : Nat} {a : AddrType} :
    op.makeAddress [head, s, i] op.queryShape = some a ↔ head < op.nh ∧ s < op.qLen ∧ i < op.dk ∧
      a = op.elementAddress (head * (op.qLen * op.dk) + s * op.dk + i) :=
  Node.makeAddress_three

theorem makeAddress_output {s head i : Nat} {a : AddrType} :
    op.makeAddress [s, head, i] op.outputShape = some a ↔ s < op.seq ∧ head < op.nh ∧ i < op.dk ∧
      a = op.elementAddress (s * (op.nh * op.dk) + head * op.dk + i) :=
  Node.makeAddress_three

theorem mem_keyElements {s i : Nat} : (s, i) ∈ op.keyElements mapping tile ↔
    s < blockSeqLen mapping ∧ tile.M * blockSeqLen mapping + s < op.seq ∧ i < op.dk := by
  unfold keyElements
  rw [Blocks.takeWhile_eq_filter]
  · simp [and_assoc]
  · refine List.pairwise_lt_range.imp fun {s t} hst => ?_
    simp only [decide_eq_true_eq]
    omega

theorem mem_queryElements {start : Nat} {p : Nat × Nat} :
    p ∈ op.queryElements mapping numHeads start ↔ ∃ s < blockQLen mapping numHeads,
      start + s < op.qLen ∧ ∃ i < op.dk, p = (start + s, i) := by
  unfold queryElements
  simp only [List.mem_flatMap, List.mem_filter, List.mem_range, decide_eq_true_eq, List.mem_map,
    and_assoc]
  constructor
  · rintro ⟨s, hs, hin, i, hi, rfl⟩
    exact ⟨s, hs, hin, i, hi, rfl⟩
  · rintro ⟨s, hs, hin, i, hi, rfl⟩
    exact ⟨s, hs, hin, i, hi, rfl⟩

/-- The parts of the instruction list. -/
structure Parts (op : Attention) (mapping : Mapping) (tile : Tile) (headIdx numHeads : Nat)
    (kv : List AddrType) (queries stores : List Instruction) : Prop where
  offset_pos : 0 < op.qlenOffset mapping
  numHeads_le : numHeads ≤ op.nkvh
  loopSize_pos : 0 < op.loopSize
  kv : op.kvAddrs mapping tile headIdx = some kv
  queries : (List.range numHeads).mapM (op.queryMovin mapping tile headIdx numHeads) = some queries
  stores : op.stores mapping tile headIdx numHeads = some stores

/-- What the tile computes between its loads and its stores. -/
def computes (op : Attention) (mapping : Mapping) (headIdx numHeads : Nat) : List Instruction :=
  op.scoreGemms mapping headIdx numHeads ++
    (List.range numHeads).flatMap (op.softmax mapping numHeads) ++
    op.valueGemms mapping headIdx numHeads

theorem initializeInstructions_eq_some_iff :
    op.initializeInstructions mapping tile headIdx numHeads = some is ↔
      0 < numHeads ∧ ∃ kv queries stores, Parts op mapping tile headIdx numHeads kv queries stores ∧
        is = op.keyMovin mapping headIdx numHeads kv :: queries ++
          [op.valueMovin mapping headIdx numHeads kv] ++ op.computes mapping headIdx numHeads ++
            stores := by
  unfold initializeInstructions
  split
  · rename_i hbad
    refine iff_of_false (by simp) ?_
    rintro ⟨hpos, kv, queries, stores, hparts, -⟩
    have hoffset := hparts.offset_pos
    have hheads := hparts.numHeads_le
    have hloop := hparts.loopSize_pos
    omega
  · rename_i hgood
    simp only [not_or, Nat.not_lt] at hgood
    constructor
    · intro his
      obtain ⟨kv, hkv, his⟩ := Option.bind_eq_some_iff.mp his
      obtain ⟨queries, hqueries, his⟩ := Option.bind_eq_some_iff.mp his
      obtain ⟨stores, hstores, his⟩ := Option.bind_eq_some_iff.mp his
      obtain rfl := Option.some.inj his
      refine ⟨by omega, kv, queries, stores,
        ⟨by omega, hgood.2.2.1, by omega, hkv, hqueries, hstores⟩, ?_⟩
      simp [computes]
    · rintro ⟨-, kv, queries, stores, hparts, rfl⟩
      rw [hparts.kv, hparts.queries, hparts.stores]
      simp [computes]

theorem opcode_of_computes {i : Instruction} (hi : i ∈ op.computes mapping headIdx numHeads) :
    i.opcode ≠ .MOVIN ∧ i.opcode ≠ .MOVOUT := by
  have hgemm : ∀ h : Nat, (if h = 0 then Opcode.GEMM_PRELOAD else .GEMM) ≠ .MOVIN ∧
      (if h = 0 then Opcode.GEMM_PRELOAD else .GEMM) ≠ .MOVOUT := by
    intro h
    split <;> decide
  rcases List.mem_append.mp hi with hi | hi
  · rcases List.mem_append.mp hi with hi | hi
    · obtain ⟨s, -, hi⟩ := List.mem_flatMap.mp hi
      obtain ⟨k, -, hi⟩ := List.mem_flatMap.mp hi
      obtain ⟨h, -, rfl⟩ := List.mem_map.mp hi
      exact hgemm h
    · obtain ⟨h, -, hi⟩ := List.mem_flatMap.mp hi
      simp only [softmax, List.mem_cons, List.not_mem_nil, or_false] at hi
      rcases hi with rfl | rfl | rfl | rfl | rfl | rfl | rfl <;> exact ⟨by simp, by simp⟩
  · obtain ⟨k, -, hi⟩ := List.mem_flatMap.mp hi
    obtain ⟨s, -, hi⟩ := List.mem_flatMap.mp hi
    obtain ⟨h, -, rfl⟩ := List.mem_map.mp hi
    exact hgemm h

theorem queryMovin_spec {h : Nat} {i : Instruction}
    (hi : op.queryMovin mapping tile headIdx numHeads h = some i) :
    i.opcode = .MOVIN ∧ i.operandId = INPUT_OPERAND := by
  obtain ⟨addrs, -, hi⟩ := Option.bind_eq_some_iff.mp hi
  obtain rfl := Option.some.inj hi
  exact ⟨rfl, rfl⟩

/-- The address is that of an element which the tile stores for head `k`. -/
def Stored (op : Attention) (mapping : Mapping) (tile : Tile) (headIdx numHeads k : Nat)
    (a : AddrType) : Prop :=
  ∃ s < blockQLen mapping numHeads, tile.M * blockQLen mapping numHeads + s < op.qLen ∧
    ∃ i < op.dk, a = op.getOperandAddr OUTPUT_OPERAND + op.elementAddress
      ((tile.M * blockQLen mapping numHeads + s) * (op.nh * op.dk) + (headIdx + k) * op.dk + i)

theorem touched_store {k : Nat} {part : List Instruction}
    (hpart : op.store mapping tile headIdx numHeads k = some part) {a : AddrType} :
    Touched part .MOVOUT OUTPUT_OPERAND a ↔ Stored op mapping tile headIdx numHeads k a := by
  obtain ⟨addrs, haddrs, hpart⟩ := Option.bind_eq_some_iff.mp hpart
  have hsrc : a ∈ addrs.map (op.getOperandAddr OUTPUT_OPERAND + ·) ↔ _ :=
    mem_addresses haddrs (fun p => p.1 * (op.nh * op.dk) + (headIdx + k) * op.dk + p.2)
      fun p _ b hb => (makeAddress_output.mp hb).2.2.2
  have hmovout : Touched part .MOVOUT OUTPUT_OPERAND a ↔
      a ∈ addrs.map (op.getOperandAddr OUTPUT_OPERAND + ·) := by
    obtain rfl := Option.some.inj hpart
    constructor
    · rintro ⟨i, hi, hopcode, -, ha⟩
      simp only [List.mem_cons, List.not_mem_nil, or_false] at hi
      rcases hi with rfl | rfl | rfl
      · cases hopcode
      · cases hopcode
      · exact mem_addrSet.mp ha
    · intro ha
      exact ⟨_, List.mem_cons_of_mem _ (List.mem_cons_of_mem _ List.mem_cons_self), rfl, rfl,
        mem_addrSet.mpr ha⟩
  rw [hmovout, hsrc]
  constructor
  · rintro ⟨p, hp, rfl⟩
    obtain ⟨s, hs, hin, i, hi, rfl⟩ := mem_queryElements.mp hp
    exact ⟨s, hs, hin, i, hi, rfl⟩
  · rintro ⟨s, hs, hin, i, hi, rfl⟩
    exact ⟨_, mem_queryElements.mpr ⟨s, hs, hin, i, hi, rfl⟩, rfl⟩

namespace Parts

variable {kv : List AddrType} {queries stores : List Instruction}
  (h : Parts op mapping tile headIdx numHeads kv queries stores)
include h

theorem opcode_of_stores {i : Instruction} (hi : i ∈ stores) : i.opcode ≠ .MOVIN := by
  have hstores := h.stores
  unfold Attention.stores at hstores
  split at hstores
  · obtain ⟨all, hall, hstores⟩ := Option.bind_eq_some_iff.mp hstores
    obtain rfl := Option.some.inj hstores
    obtain ⟨part, hpart, hi⟩ := List.mem_flatten.mp hi
    obtain ⟨k, -, hstore⟩ := Loops.exists_of_mem hall hpart
    obtain ⟨addrs, -, hstore⟩ := Option.bind_eq_some_iff.mp hstore
    obtain rfl := Option.some.inj hstore
    simp only [List.mem_cons, List.not_mem_nil, or_false] at hi
    rcases hi with rfl | rfl | rfl <;> simp
  · obtain rfl := Option.some.inj hstores
    cases hi

/-- The sources of the MOVINs of the keys, for `operandId` the first operand after the queries, and
of those of the values. -/
theorem touched_kv {operandId : Nat}
    (hoperand : operandId = INPUT_OPERAND + 1 ∨ operandId = INPUT_OPERAND + 2) {a : AddrType} :
    Touched (op.keyMovin mapping headIdx numHeads kv :: queries ++
        [op.valueMovin mapping headIdx numHeads kv] ++ op.computes mapping headIdx numHeads ++
          stores) .MOVIN operandId a ↔
      a ∈ kv.map (op.getOperandAddr operandId + ·) := by
  constructor
  · rintro ⟨i, hi, hopcode, hid, ha⟩
    rcases List.mem_append.mp hi with hi | hi
    · rcases List.mem_append.mp hi with hi | hi
      · rcases List.mem_append.mp hi with hi | hi
        · rcases List.mem_cons.mp hi with rfl | hi
          · exact hid ▸ ha
          · obtain ⟨k, -, hquery⟩ := Loops.exists_of_mem h.queries hi
            rw [(queryMovin_spec hquery).2] at hid
            rcases hoperand with rfl | rfl <;> cases hid
        · obtain rfl := List.mem_singleton.mp hi
          exact hid ▸ ha
      · exact absurd hopcode (opcode_of_computes hi).1
    · exact absurd hopcode (h.opcode_of_stores hi)
  · intro ha
    rcases hoperand with rfl | rfl
    · exact ⟨_, List.mem_cons_self, rfl, rfl, ha⟩
    · exact ⟨op.valueMovin mapping headIdx numHeads kv, by simp, rfl, rfl, ha⟩

theorem mem_kv {base a : AddrType} : a ∈ kv.map (base + ·) ↔
    ∃ s < blockSeqLen mapping, tile.M * blockSeqLen mapping + s < op.seq ∧ ∃ i < op.dk,
      a = base + op.elementAddress
        (op.kvHeadIdx headIdx * (op.seq * op.dk) + s * op.dk + i) := by
  have hkv := h.kv
  obtain ⟨addrs, haddrs, hkv⟩ := Option.bind_eq_some_iff.mp hkv
  obtain rfl := Option.some.inj hkv
  have hset : a ∈ (addrSet addrs).map (base + ·) ↔ a ∈ addrs.map (base + ·) := by
    simp only [List.mem_map, mem_addrSet]
  rw [hset, mem_addresses haddrs
    (fun p => op.kvHeadIdx headIdx * (op.seq * op.dk) + p.1 * op.dk + p.2)
    fun p _ b hb => (makeAddress_key.mp hb).2.2.2]
  constructor
  · rintro ⟨⟨s, i⟩, hp, rfl⟩
    obtain ⟨hs, hin, hi⟩ := mem_keyElements.mp hp
    exact ⟨s, hs, hin, i, hi, rfl⟩
  · rintro ⟨s, hs, hin, i, hi, rfl⟩
    exact ⟨(s, i), mem_keyElements.mpr ⟨hs, hin, hi⟩, rfl⟩

/-- The stores are the MOVOUTs. -/
theorem mem_stores {i : Instruction} (hopcode : i.opcode = .MOVOUT)
    (hi : i ∈ op.keyMovin mapping headIdx numHeads kv :: queries ++
      [op.valueMovin mapping headIdx numHeads kv] ++ op.computes mapping headIdx numHeads ++
        stores) : i ∈ stores := by
  rcases List.mem_append.mp hi with hi | hi
  · rcases List.mem_append.mp hi with hi | hi
    · rcases List.mem_append.mp hi with hi | hi
      · rcases List.mem_cons.mp hi with rfl | hi
        · cases hopcode
        · obtain ⟨k, -, hquery⟩ := Loops.exists_of_mem h.queries hi
          rw [(queryMovin_spec hquery).1] at hopcode
          cases hopcode
      · obtain rfl := List.mem_singleton.mp hi
        cases hopcode
    · exact absurd hopcode (opcode_of_computes hi).2
  · exact hi

/-- The sources of the MOVOUTs. -/
theorem touched_outputs {a : AddrType} :
    Touched (op.keyMovin mapping headIdx numHeads kv :: queries ++
        [op.valueMovin mapping headIdx numHeads kv] ++ op.computes mapping headIdx numHeads ++
          stores) .MOVOUT OUTPUT_OPERAND a ↔
      tile.M + 1 = mapping.tileOutLoop.M ∧
        ∃ k < numHeads, Stored op mapping tile headIdx numHeads k a := by
  have hstores := h.stores
  unfold Attention.stores at hstores
  constructor
  · rintro ⟨i, hi, hopcode, hid, ha⟩
    have hin := h.mem_stores hopcode hi
    split at hstores
    · rename_i hlast
      obtain ⟨all, hall, hstores⟩ := Option.bind_eq_some_iff.mp hstores
      obtain rfl := Option.some.inj hstores
      obtain ⟨part, hpart, hi⟩ := List.mem_flatten.mp hin
      obtain ⟨k, hk, hsome⟩ := Loops.exists_of_mem hall hpart
      exact ⟨hlast, k, List.mem_range.mp hk,
        (touched_store hsome).mp ⟨i, hi, hopcode, hid, ha⟩⟩
    · obtain rfl := Option.some.inj hstores
      cases hin
  · rintro ⟨hlast, k, hk, hrows⟩
    rw [if_pos hlast] at hstores
    obtain ⟨all, hall, hstores⟩ := Option.bind_eq_some_iff.mp hstores
    obtain rfl := Option.some.inj hstores
    obtain ⟨part, hsome⟩ := Loops.exists_mapM_iff.mp ⟨all, hall⟩ k (List.mem_range.mpr hk)
    obtain ⟨i, hi, hopcode, hid, ha⟩ := (touched_store hsome).mpr hrows
    refine ⟨i, List.mem_append_right _ (List.mem_flatten.mpr ⟨part, ?_, hi⟩), hopcode, hid, ha⟩
    exact (Loops.mem_iff_of_mapM hall).mpr ⟨k, List.mem_range.mpr hk, hsome⟩

end Parts

/-! ## The tiles -/

/-- `head_off / heads_per_kv`: the key head of a tile. -/
def group (op : Attention) (mapping : Mapping) (n : Nat) : Nat := n / op.qlenOffset mapping

/-- `head_off`. -/
def headOff (op : Attention) (mapping : Mapping) (n : Nat) : Nat :=
  op.group mapping n * op.headsPerKv

/-- No row that the tile stores is beyond the rows of `output_shape`. -/
def StoresInRange (op : Attention) (mapping : Mapping) (qLen m : Nat) : Prop :=
  m + 1 = mapping.tileOutLoop.M → ∀ s < qLen, m * qLen + s < op.qLen → m * qLen + s < op.seq

namespace InLoops

variable (h : InLoops op mapping qLen tile.batch tile.M) (hsizes : op.Sizes)
include h hsizes

theorem headOff_lt {k : Nat} (hk : k < op.headsPerKv) :
    op.headOff mapping tile.batch + k < op.nh := by
  have hmul : (op.group mapping tile.batch + 1) * op.headsPerKv ≤ op.nkvh * op.headsPerKv :=
    Nat.mul_le_mul_right _ h.group_lt
  rw [hsizes.nh_eq, Nat.succ_mul] at hmul
  unfold headOff
  omega

theorem kvHeadIdx_lt (hheads : op.headsPerKv ≤ op.nkvh) :
    op.kvHeadIdx (op.headOff mapping tile.batch) < op.nkvh := by
  have hlt := h.headOff_lt hsizes hsizes.headsPerKv_pos
  unfold kvHeadIdx
  refine Nat.div_lt_of_lt_mul ?_
  calc op.headOff mapping tile.batch < op.nh := by omega
    _ = op.nkvh * op.headsPerKv := hsizes.nh_eq.symm
    _ ≤ op.nkvh * op.nkvh := Nat.mul_le_mul_left _ hheads

theorem exists_kvAddrs (hheads : op.headsPerKv ≤ op.nkvh) :
    ∃ kv, op.kvAddrs mapping tile (op.headOff mapping tile.batch) = some kv := by
  unfold kvAddrs
  refine Loops.exists_bind_some_iff.mpr (Loops.exists_mapM fun p hp => ?_)
  obtain ⟨-, hin, hi⟩ := mem_keyElements.mp hp
  exact ⟨_, makeAddress_key.mpr ⟨h.kvHeadIdx_lt hsizes hheads, by omega, hi, rfl⟩⟩

theorem exists_queries : ∃ queries, (List.range op.headsPerKv).mapM
    (op.queryMovin mapping tile (op.headOff mapping tile.batch) op.headsPerKv) = some queries := by
  refine Loops.exists_mapM fun k hk => ?_
  unfold queryMovin
  refine Loops.exists_bind_some_iff.mpr (Loops.exists_mapM fun p hp => ?_)
  obtain ⟨s, -, hin, i, hi, rfl⟩ := mem_queryElements.mp hp
  exact ⟨_, makeAddress_query.mpr ⟨h.headOff_lt hsizes (List.mem_range.mp hk), hin, hi, rfl⟩⟩

theorem exists_store_iff (hblock : blockQLen mapping op.headsPerKv = qLen) {k : Nat}
    (hk : k < op.headsPerKv) :
    (∃ part, op.store mapping tile (op.headOff mapping tile.batch) op.headsPerKv k = some part) ↔
      ∀ s < qLen, tile.M * qLen + s < op.qLen → tile.M * qLen + s < op.seq := by
  unfold store
  refine Loops.exists_bind_some_iff.trans ?_
  rw [Loops.exists_mapM_iff, hblock]
  constructor
  · intro hall s hs hin
    obtain ⟨a, ha⟩ := hall (tile.M * qLen + s, 0)
      (mem_queryElements.mpr ⟨s, hblock ▸ hs, hin, 0, hsizes.dk_pos, rfl⟩)
    exact (makeAddress_output.mp ha).1
  · intro hall p hp
    obtain ⟨s, hs, hin, i, hi, rfl⟩ := mem_queryElements.mp hp
    exact ⟨_, makeAddress_output.mpr ⟨hall s (hblock ▸ hs) hin, h.headOff_lt hsizes hk, hi, rfl⟩⟩

theorem exists_stores_iff (hblock : blockQLen mapping op.headsPerKv = qLen) :
    (∃ stores, op.stores mapping tile (op.headOff mapping tile.batch) op.headsPerKv =
      some stores) ↔ op.StoresInRange mapping qLen tile.M := by
  unfold Attention.stores StoresInRange
  split
  · rename_i hlast
    refine Loops.exists_bind_some_iff.trans ?_
    rw [Loops.exists_mapM_iff]
    constructor
    · intro hall _
      refine (h.exists_store_iff hsizes hblock hsizes.headsPerKv_pos).mp ?_
      exact hall 0 (List.mem_range.mpr hsizes.headsPerKv_pos)
    · intro hrows k hk
      exact (h.exists_store_iff hsizes hblock (List.mem_range.mp hk)).mpr (hrows hlast)
  · rename_i hnot
    exact iff_of_true ⟨[], rfl⟩ fun hlast => absurd hlast hnot

/-- The instructions of a tile are made exactly when there are enough key heads and no stored row is
out of range. -/
theorem exists_instructions_iff (hblock : blockQLen mapping op.headsPerKv = qLen) :
    (∃ is, op.initializeInstructions mapping tile (op.headOff mapping tile.batch) op.headsPerKv =
      some is) ↔ op.headsPerKv ≤ op.nkvh ∧ op.StoresInRange mapping qLen tile.M := by
  constructor
  · rintro ⟨is, his⟩
    obtain ⟨-, kv, queries, stores, hparts, -⟩ := initializeInstructions_eq_some_iff.mp his
    exact ⟨hparts.numHeads_le, (h.exists_stores_iff hsizes hblock).mp ⟨stores, hparts.stores⟩⟩
  · rintro ⟨hheads, hrange⟩
    obtain ⟨kv, hkv⟩ := h.exists_kvAddrs hsizes hheads
    obtain ⟨queries, hqueries⟩ := h.exists_queries hsizes
    obtain ⟨stores, hstores⟩ := (h.exists_stores_iff hsizes hblock).mpr hrange
    exact ⟨_, initializeInstructions_eq_some_iff.mpr ⟨hsizes.headsPerKv_pos, kv, queries, stores,
      ⟨h.offset_pos, hheads, hsizes.loopSize_pos, hkv, hqueries, hstores⟩, rfl⟩⟩

end InLoops

theorem initializeTile_eq_some {instructions : Tile → Nat → Nat → Option (List Instruction)}
    {n m : Nat} {t : Tile} (ht : op.initializeTile instructions mapping (n, m) = some t) :
    t.batch = n ∧ t.M = m ∧ ∃ tile : Tile, tile.batch = n ∧ tile.M = m ∧
      instructions tile (op.headOff mapping n) op.headsPerKv = some t.instructions := by
  unfold initializeTile at ht
  simp only at ht
  split at ht
  · cases ht
  · obtain ⟨is, his, ht⟩ := Option.bind_eq_some_iff.mp ht
    obtain rfl := Option.some.inj ht
    exact ⟨rfl, rfl, _, rfl, rfl, his⟩

theorem mem_tileLoops {n m : Nat} : (n, m) ∈ tileLoops mapping ↔
    n < mapping.tileOutLoop.N ∧ m < mapping.tileOutLoop.M := by
  simp [tileLoops]

theorem exists_initializeTile_iff {n m : Nat} (hsizes : op.Sizes) (hcut : op.Cut mapping qLen)
    (h : InLoops op mapping qLen n m) :
    (∃ t, op.initializeTile (op.initializeInstructions mapping) mapping (n, m) = some t) ↔
      op.headsPerKv ≤ op.nkvh ∧ op.StoresInRange mapping qLen m := by
  unfold initializeTile
  simp only
  have hoffset : mapping.tileOutLoop.N / op.nkvh ≠ 0 := h.offset_pos.ne'
  rw [if_neg (not_or.mpr ⟨hsizes.nkvh_pos.ne', hoffset⟩)]
  refine Loops.exists_bind_some_iff.trans ?_
  refine InLoops.exists_instructions_iff ?_ hsizes (hcut.blockQLen_eq hsizes)
  exact h

namespace Cut

variable (h : op.Cut mapping qLen) (hsizes : op.Sizes) (hmap : op.calculateLoops = some mapping)
  {tiles : List Tile}
include h hsizes hmap

/-- The tiles are made exactly when there are enough key heads and no stored row is out of range. -/
theorem exists_tiles_iff : (∃ tiles, op.initializeTiles op.initializeInstructions = some tiles) ↔
    ∀ n < mapping.tileOutLoop.N, ∀ m < mapping.tileOutLoop.M,
      op.headsPerKv ≤ op.nkvh ∧ op.StoresInRange mapping qLen m := by
  unfold initializeTiles
  rw [hmap]
  refine Loops.exists_mapM_iff.trans ?_
  constructor
  · intro hall n hn m hm
    refine (exists_initializeTile_iff hsizes h (h.inLoops hsizes hn hm)).mp ?_
    exact hall (n, m) (mem_tileLoops.mpr ⟨hn, hm⟩)
  · rintro hall ⟨n, m⟩ hnm
    obtain ⟨hn, hm⟩ := mem_tileLoops.mp hnm
    exact (exists_initializeTile_iff hsizes h (h.inLoops hsizes hn hm)).mpr (hall n hn m hm)

variable (htiles : op.initializeTiles op.initializeInstructions = some tiles)
include htiles

omit h hsizes in
/-- Each turn of the loops has its tile. -/
theorem exists_tile {n m : Nat} (hn : n < mapping.tileOutLoop.N)
    (hm : m < mapping.tileOutLoop.M) : ∃ t ∈ tiles, t.batch = n ∧ t.M = m := by
  unfold initializeTiles at htiles
  rw [hmap] at htiles
  obtain ⟨t, ht, hmake⟩ := Loops.exists_of_forall₂ (Loops.forall₂_of_mapM htiles)
    (mem_tileLoops.mpr ⟨hn, hm⟩)
  obtain ⟨hbatch, hM, -⟩ := initializeTile_eq_some hmake
  exact ⟨t, ht, hbatch, hM⟩

omit h hsizes in
/-- The instructions of a tile are made for its turn of the loops. -/
theorem of_mem {t : Tile} (ht : t ∈ tiles) :
    t.batch < mapping.tileOutLoop.N ∧ t.M < mapping.tileOutLoop.M ∧
      ∃ tile : Tile, tile.batch = t.batch ∧ tile.M = t.M ∧
        op.initializeInstructions mapping tile (op.headOff mapping t.batch) op.headsPerKv =
          some t.instructions := by
  unfold initializeTiles at htiles
  rw [hmap] at htiles
  obtain ⟨⟨n, m⟩, hnm, hmake⟩ := Loops.exists_of_mem htiles ht
  obtain ⟨hn, hm⟩ := mem_tileLoops.mp hnm
  obtain ⟨rfl, rfl, tile, hbatch, hM, his⟩ := initializeTile_eq_some hmake
  exact ⟨hn, hm, tile, hbatch, hM, his⟩

theorem inLoops_of_mem {t : Tile} (ht : t ∈ tiles) : InLoops op mapping qLen t.batch t.M := by
  obtain ⟨hn, hm, -⟩ := of_mem hmap htiles ht
  exact h.inLoops hsizes hn hm

omit h hsizes in
/-- The keys or the values that a tile loads. -/
theorem touched_kv {t : Tile} (ht : t ∈ tiles) {operandId : Nat}
    (hoperand : operandId = INPUT_OPERAND + 1 ∨ operandId = INPUT_OPERAND + 2) {a : AddrType} :
    Touched t.instructions .MOVIN operandId a ↔
      ∃ s < blockSeqLen mapping, t.M * blockSeqLen mapping + s < op.seq ∧ ∃ i < op.dk,
        a = op.getOperandAddr operandId + op.elementAddress
          (op.kvHeadIdx (op.headOff mapping t.batch) * (op.seq * op.dk) + s * op.dk + i) := by
  obtain ⟨-, -, tile, -, hM, his⟩ := of_mem hmap htiles ht
  obtain ⟨-, kv, queries, stores, hparts, heq⟩ := initializeInstructions_eq_some_iff.mp his
  rw [heq, hparts.touched_kv hoperand, hparts.mem_kv, hM]

/-- The rows that a tile stores. -/
theorem touched_outputs {t : Tile} (ht : t ∈ tiles) {a : AddrType} :
    Touched t.instructions .MOVOUT OUTPUT_OPERAND a ↔ t.M + 1 = mapping.tileOutLoop.M ∧
      ∃ k < op.headsPerKv, ∃ s < qLen, t.M * qLen + s < op.qLen ∧ ∃ i < op.dk,
        a = op.getOperandAddr OUTPUT_OPERAND + op.elementAddress
          ((t.M * qLen + s) * (op.nh * op.dk) + (op.headOff mapping t.batch + k) * op.dk + i) := by
  obtain ⟨-, -, tile, -, hM, his⟩ := of_mem hmap htiles ht
  obtain ⟨-, kv, queries, stores, hparts, heq⟩ := initializeInstructions_eq_some_iff.mp his
  rw [heq, hparts.touched_outputs, hM]
  unfold Stored
  rw [h.blockQLen_eq hsizes, hM]

end Cut

end Attention

end OnnxSim
