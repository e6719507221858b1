import OnnxSim.Operations.TokenOps

/-!
# Which accesses of tiles stay in their operands

An element-wise operation walks over each operand in one strip: rows of bytes from a base address on, a
number of them for each tile, and an access for every `dram_req_size` bytes of a tile (`Strip`). As long as
the byte offsets have 32 bits, the accesses stay in a tensor exactly if the last one does, which is a matter
of how far the base is from the start of the tensor (`Strip.Bounded`). So the accesses of the tiles stay in
the operands exactly if every strip is bounded (`ElementwiseNode.inside_iff`).
-/

namespace OnnxSim

/-! ## Strips -/

/-- The counter of the offsets in a tile: an `int`, a `uint32_t`, or an `int` that is compared and
advanced as a `uint32_t`. -/
inductive Counter
  | int
  | unsigned
  | mixed
  deriving Repr, DecidableEq

namespace Counter

def loop : Counter → Nat → Nat → Option (List Nat)
  | .int => countUpInt
  | .unsigned => countUp
  | .mixed => countUp

/-- The value of the counter in the sum of an address. -/
def offset : Counter → Nat → AddrType
  | .int => word
  | .unsigned => word
  | .mixed => signedWord

theorem offset_of_lt (c : Counter) {n : Nat} (h : n < 2 ^ 31) : c.offset n = BitVec.ofNat 64 n := by
  cases c with
  | int => exact congrArg (BitVec.ofNat 64) (Nat.mod_eq_of_lt (by omega))
  | unsigned => exact congrArg (BitVec.ofNat 64) (Nat.mod_eq_of_lt (by omega))
  | mixed => exact signedWord_of_lt h

theorem loop_of_some (c : Counter) {bound step : Nat} {l : List Nat} (h : c.loop bound step = some l)
    (hbound : bound < 2 ^ 31) (hstep : step < 2 ^ 32) :
    l = steps bound step ∧ (0 < bound → 0 < step) := by
  cases c with
  | int =>
    refine ⟨countUpInt_of_some h hbound, fun hpos => ?_⟩
    change countUpInt bound step = some l at h
    unfold countUpInt at h
    rw [if_neg (by omega)] at h
    split at h
    · exact And.left ‹_›
    · cases h
  | unsigned => exact ⟨countUp_of_some h hbound hstep, countUp_step_pos h⟩
  | mixed => exact ⟨countUp_of_some h hbound hstep, countUp_step_pos h⟩

end Counter

/-- How the tiles of an operation walk over an operand. -/
structure Strip where
  base : AddrType
  rows : Nat
  /-- The rows of a tile. -/
  perTile : Nat
  rowBytes : Nat
  req : Nat
  counter : Counter

namespace Strip

variable (s : Strip)

/-- The bytes of the tile that starts at a row. -/
def bytesAt (o : Nat) : Nat := wrap (min (s.rows - o) s.perTile * s.rowBytes)

def start (o : Nat) : AddrType := s.base + word (o * s.rowBytes)

/-- The addresses of the tile. -/
def addrs (o : Nat) : Option (List AddrType) :=
  (s.counter.loop (s.bytesAt o) s.req).map fun offs =>
    addrSet (offs.map fun off => s.start o + s.counter.offset off)

/-- Some tile accesses the address. -/
def Accesses (a : AddrType) : Prop :=
  ∃ offsets, countUp s.rows s.perTile = some offsets ∧ ∃ o ∈ offsets, ∃ as, s.addrs o = some as ∧ a ∈ as

def bytes : Nat := s.rows * s.rowBytes

def tileBytes : Nat := s.perTile * s.rowBytes

/-- The byte offsets have 32 bits. -/
def Narrow : Prop := s.bytes + s.tileBytes < 2 ^ 32 ∧ s.req < 2 ^ 32

instance : Decidable s.Narrow := inferInstanceAs (Decidable (_ ∧ _))

/-- The tile has no bytes, or its last chunk is in the tensor: as far behind the start of the tensor as
the start of the tile and the chunk come to. Where an `int` cannot count the bytes, each access is. -/
def TileBounded (t : Operand) (o : Nat) : Prop :=
  if s.bytesAt o < 2 ^ 31 ∧ s.req < 2 ^ 32 then
    s.bytesAt o = 0 ∨
      (s.start o - t.address).toNat + Strips.last (s.bytesAt o) (s.bytesAt o) s.req < t.size
  else ∀ as, s.addrs o = some as → ∀ a ∈ as, a ∈ t.region

/-- There is nothing to access, or the last chunk of the last tile is in the tensor: as far behind the
start of the tensor as the base and the chunk come to. Where the byte offsets wrap, each tile is for
itself. -/
def Bounded (t : Operand) : Prop :=
  if s.Narrow then
    s.bytes = 0 ∨ (s.base - t.address).toNat + Strips.last s.bytes s.tileBytes s.req < t.size
  else ∀ offsets, countUp s.rows s.perTile = some offsets → ∀ o ∈ offsets, s.TileBounded t o

variable {s}

/-- The chunks of a tile whose bytes an `int` can count. -/
theorem mem_addrs {o : Nat} {as : List AddrType} (h : s.addrs o = some as)
    (hbytes : s.bytesAt o < 2 ^ 31) (hreq : s.req < 2 ^ 32) {a : AddrType} :
    a ∈ as ↔ a ∈ ElementwiseNode.chunkAddrs s.base (o * s.rowBytes) (steps (s.bytesAt o) s.req) := by
  obtain ⟨offs, hoffs, rfl⟩ := Option.map_eq_some_iff.mp h
  obtain ⟨rfl, hstep⟩ := s.counter.loop_of_some hoffs hbytes hreq
  rw [mem_addrSet, List.mem_map, mem_chunkAddrs]
  refine exists_congr fun off => and_congr_right fun hoff => ?_
  rcases Nat.eq_zero_or_pos (s.bytesAt o) with hzero | hpos
  · rw [hzero, steps_zero] at hoff
    cases hoff
  · have hlt := ((mem_steps (hstep hpos)).mp hoff).1
    rw [s.counter.offset_of_lt (Nat.lt_trans hlt hbytes), eq_comm]
    unfold word start
    rw [Nat.mod_eq_of_lt (a := off) (by omega)]
    rfl

theorem step_pos {o : Nat} {as : List AddrType} (h : s.addrs o = some as)
    (hbytes : s.bytesAt o < 2 ^ 31) (hreq : s.req < 2 ^ 32) (hpos : 0 < s.bytesAt o) : 0 < s.req := by
  obtain ⟨offs, hoffs, -⟩ := Option.map_eq_some_iff.mp h
  exact (s.counter.loop_of_some hoffs hbytes hreq).2 hpos

/-- A tile accesses its samples. -/
theorem mem_addrs_iff {o : Nat} {as : List AddrType} (h : s.addrs o = some as)
    (hbytes : s.bytesAt o < 2 ^ 31) (hreq : s.req < 2 ^ 32) (hpos : 0 < s.bytesAt o) {a : AddrType} :
    a ∈ as ↔ ∃ m, Strips.Place (s.bytesAt o) (s.bytesAt o) s.req m ∧
      a = s.start o + BitVec.ofNat 64 m := by
  rw [mem_addrs h hbytes hreq, mem_chunkAddrs]
  refine exists_congr fun m => ?_
  rw [mem_steps (step_pos h hbytes hreq hpos), Strips.place_iff_dvd_of_le (Nat.le_refl _)]
  refine and_congr_right fun hm => ?_
  unfold word
  rw [Nat.mod_eq_of_lt (a := m) (by omega)]
  rfl

/-- The accesses of a tile stay in a tensor exactly if the tile is bounded. -/
theorem forall_mem_addrs_iff {o : Nat} {as : List AddrType} (h : s.addrs o = some as) (t : Operand) :
    (∀ a ∈ as, a ∈ t.region) ↔ s.TileBounded t o := by
  unfold TileBounded
  split
  · rename_i hcond
    obtain ⟨hbytes, hreq⟩ := hcond
    rcases Nat.eq_zero_or_pos (s.bytesAt o) with hzero | hpos
    · refine iff_of_true (fun a ha => ?_) (.inl hzero)
      rw [mem_addrs h hbytes hreq, hzero, steps_zero, mem_chunkAddrs] at ha
      obtain ⟨off, hoff, -⟩ := ha
      cases hoff
    · have hsize := t.size_lt
      have hfit : t.size + s.bytesAt o ≤ 2 ^ 64 := by omega
      refine Iff.trans ?_ (Strips.forall_place_iff hpos hfit)
      constructor
      · exact fun hall m hm => hall _ ((mem_addrs_iff h hbytes hreq hpos).mpr ⟨m, hm, rfl⟩)
      · intro hall a ha
        obtain ⟨m, hm, rfl⟩ := (mem_addrs_iff h hbytes hreq hpos).mp ha
        exact hall m hm
  · constructor
    · intro hall as' has'
      obtain rfl := Option.some.inj (h.symm.trans has')
      exact hall
    · exact fun hall => hall as h

/-- Byte offsets of 32 bits do not wrap in a tile either. -/
theorem bytesAt_of_narrow (hnarrow : s.Narrow) (o : Nat) :
    s.bytesAt o = min (s.rows - o) s.perTile * s.rowBytes ∧ s.bytesAt o < 2 ^ 31 := by
  have hsum := hnarrow.1
  unfold bytes tileBytes at hsum
  unfold bytesAt
  rw [tileBytes_eq, wrap_of_lt (by omega)]
  exact ⟨rfl, by omega⟩

/-- The accesses of narrow tiles are the samples of the strip. -/
theorem accesses_iff (hnarrow : s.Narrow) {offsets : List Nat}
    (hoffsets : countUp s.rows s.perTile = some offsets)
    (hends : ∀ o ∈ offsets, ∃ as, s.addrs o = some as) (hbytes : 0 < s.bytes) {a : AddrType} :
    s.Accesses a ↔ ∃ m, Strips.Place s.bytes s.tileBytes s.req m ∧ a = s.base + BitVec.ofNat 64 m := by
  have hsum := hnarrow.1
  have hrows : 0 < s.rows := Nat.pos_of_mul_pos_right hbytes
  have hrow : 0 < s.rowBytes := Nat.pos_of_mul_pos_left hbytes
  have hper : 0 < s.perTile := countUp_step_pos hoffsets hrows
  have hrowsle : s.rows ≤ s.bytes := Nat.le_mul_of_pos_right _ hrow
  have hperle : s.perTile ≤ s.tileBytes := Nat.le_mul_of_pos_right _ hrow
  have hsteps := hoffsets.symm.trans (countUp_of_le hper (by omega))
  obtain rfl := Option.some.inj hsteps
  have hreq : 0 < s.req := by
    obtain ⟨as, has⟩ := hends 0 (zero_mem_countUp hoffsets hrows)
    obtain ⟨heq, hlt⟩ := bytesAt_of_narrow hnarrow 0
    refine step_pos has hlt hnarrow.2 ?_
    rw [heq]
    exact Nat.mul_pos (by omega) hrow
  have hfit : s.rows * s.rowBytes + s.perTile * s.rowBytes ≤ 2 ^ 32 := Nat.le_of_lt hsum
  unfold Accesses
  rw [hoffsets]
  simp only [Option.some.injEq, exists_eq_left']
  refine Iff.trans (exists_congr fun o => and_congr_right fun ho => ?_)
    (exists_tileChunk_iff hper hrow hreq hfit)
  obtain ⟨as, has⟩ := hends o ho
  rw [has]
  simp only [Option.some.injEq, exists_eq_left']
  exact mem_addrs has (bytesAt_of_narrow hnarrow o).2 hnarrow.2

/-- The accesses of a strip stay in a tensor exactly if it is bounded. -/
theorem forall_accesses_iff {offsets : List Nat} (hoffsets : countUp s.rows s.perTile = some offsets)
    (hends : ∀ o ∈ offsets, ∃ as, s.addrs o = some as) (t : Operand) :
    (∀ a, s.Accesses a → a ∈ t.region) ↔ s.Bounded t := by
  unfold Bounded
  split
  · rename_i hnarrow
    rcases Nat.eq_zero_or_pos s.bytes with hzero | hbytes
    · refine iff_of_true ?_ (.inl hzero)
      rintro a ⟨offsets', hoffsets', o, ho, as, has, ha⟩
      obtain ⟨heq, hlt⟩ := bytesAt_of_narrow hnarrow o
      rw [mem_addrs has hlt hnarrow.2] at ha
      obtain ⟨off, hoff, -⟩ := mem_chunkAddrs.mp ha
      rcases Nat.mul_eq_zero.mp hzero with hrows | hrow
      · rw [hrows, countUp_zero] at hoffsets'
        obtain rfl := Option.some.inj hoffsets'
        cases ho
      · rw [heq, hrow, Nat.mul_zero, steps_zero] at hoff
        cases hoff
    · have hper : 0 < s.perTile := countUp_step_pos hoffsets (Nat.pos_of_mul_pos_right hbytes)
      have htile : 0 < s.tileBytes := Nat.mul_pos hper (Nat.pos_of_mul_pos_left hbytes)
      have hsize := t.size_lt
      have hsum := hnarrow.1
      have hfit : t.size + s.bytes ≤ 2 ^ 64 := by omega
      refine Iff.trans ?_ (Strips.forall_place_iff htile hfit)
      simp only [accesses_iff hnarrow hoffsets hends hbytes]
      constructor
      · exact fun hall m hm => hall _ ⟨m, hm, rfl⟩
      · rintro hall a ⟨m, hm, rfl⟩
        exact hall m hm
  · constructor
    · intro hall offsets' hoffsets' o ho
      obtain rfl := Option.some.inj (hoffsets.symm.trans hoffsets')
      obtain ⟨as, has⟩ := hends o ho
      exact (forall_mem_addrs_iff has t).mp fun a ha => hall a ⟨offsets, hoffsets, o, ho, as, has, ha⟩
    · rintro hall a ⟨offsets', hoffsets', o, ho, as, has, ha⟩
      exact (forall_mem_addrs_iff has t).mpr (hall offsets' hoffsets' o ho) a ha

/-- A strip that starts at the start of a tensor is bounded by it if the tensor has its bytes. -/
theorem bounded_of_base {t : Operand} (hnarrow : s.Narrow) (hbase : s.base = t.address)
    (hbytes : s.bytes ≤ t.size) : s.Bounded t := by
  unfold Bounded
  rw [if_pos hnarrow]
  rcases Nat.eq_zero_or_pos s.bytes with hzero | hpos
  · exact .inl hzero
  · have hlast : Strips.last s.bytes s.tileBytes s.req < s.bytes := Strips.last_lt hpos
    rw [hbase, BitVec.sub_self, BitVec.toNat_zero, Nat.zero_add]
    exact .inr (Nat.lt_of_lt_of_le hlast hbytes)

/-- The tiles of the operation walk over the strip: over its rows in step with the tokens, or each of them
over a single row. -/
def Follows (s : Strip) (total perTile : Nat) : Prop :=
  s.rows = total ∧ s.perTile = perTile ∨ s.rows = min 1 total ∧ s.perTile = 1

/-- The tile of a token starts at the row of the token, as far as there are rows. -/
theorem Follows.exists_offsets {total perTile : Nat} {offsets : List Nat} (h : s.Follows total perTile)
    (hoffsets : countUp total perTile = some offsets) :
    ∃ starts, countUp s.rows s.perTile = some starts ∧
      ∀ r, r ∈ starts ↔ ∃ o ∈ offsets, r = o % s.rows := by
  rcases h with ⟨hrows, hper⟩ | ⟨hrows, hper⟩
  · refine ⟨offsets, by rw [hrows, hper, hoffsets], fun r => ?_⟩
    have hmod : ∀ o ∈ offsets, o % s.rows = o := fun o ho =>
      Nat.mod_eq_of_lt (hrows ▸ lt_of_mem_countUp hoffsets ho)
    constructor
    · exact fun hr => ⟨r, hr, (hmod r hr).symm⟩
    · rintro ⟨o, ho, rfl⟩
      rwa [hmod o ho]
  · rcases Nat.eq_zero_or_pos total with rfl | hpos
    · rw [countUp_zero] at hoffsets
      obtain rfl := Option.some.inj hoffsets
      refine ⟨[], by rw [hrows, hper]; rfl, fun r => iff_of_false List.not_mem_nil ?_⟩
      rintro ⟨o, ho, -⟩
      cases ho
    · rw [Nat.min_eq_left hpos] at hrows
      have hone : countUp 1 1 = some [0] := countUp_of_le Nat.one_pos (by decide)
      refine ⟨[0], by rw [hrows, hper, hone], fun r => ?_⟩
      rw [List.mem_singleton, hrows]
      constructor
      · rintro rfl
        exact ⟨0, zero_mem_countUp hoffsets hpos, rfl⟩
      · rintro ⟨o, -, rfl⟩
        exact Nat.mod_one o

end Strip

/-! ## Tiles -/

namespace Operand

/-- What an instruction finds for an operand that the operation does not have. -/
def missing : Operand where
  dims := []
  address := 0
  size := 0
  size_lt := by decide

/-- The operand of a MOVIN. -/
def ofId (inputs : List Operand) (operandId : Nat) : Operand :=
  inputs.getD (operandId - INPUT_OPERAND) missing

end Operand

/-- Each load of a tile is of addresses in its operand, and each store of addresses in the output. -/
structure Tile.Inside (inputs : List Operand) (output : Operand) (t : Tile) : Prop where
  loads : ∀ i ∈ t.instructions, i.opcode = .MOVIN → ∀ a ∈ i.srcAddrs,
    a ∈ (Operand.ofId inputs i.operandId).region
  stores : ∀ i ∈ t.instructions, i.opcode = .MOVOUT → ∀ a ∈ i.srcAddrs, a ∈ output.region

/-- What a tile accesses in its operands. -/
def accessesOf (inputs : List Operand) (output : Operand) (loads : List Instruction)
    (addrs : List AddrType) : List (List AddrType × Operand) :=
  loads.map (fun i => (i.srcAddrs, Operand.ofId inputs i.operandId)) ++ [(addrs, output)]

section Tiles

open ElementwiseNode

variable {inputs : List Operand} {output : Operand}

theorem Tile.inside_iff {t : Tile} {loads computes : List Instruction} {destAddr : AddrType}
    {addrs : List AddrType} (h : t.instructions = loads ++ computes ++ [movout destAddr addrs])
    (hloads : ∀ i ∈ loads, i.opcode = .MOVIN) (hcomputes : ∀ i ∈ computes, i.Computes) :
    t.Inside inputs output ↔
      ∀ p ∈ accessesOf inputs output loads addrs, ∀ a ∈ p.1, a ∈ p.2.region := by
  unfold accessesOf
  constructor
  · intro hinside p hp
    rcases List.mem_append.mp hp with hp | hp
    · obtain ⟨i, hi, rfl⟩ := List.mem_map.mp hp
      refine hinside.loads i ?_ (hloads i hi)
      rw [h]
      exact List.mem_append_left _ (List.mem_append_left _ hi)
    · obtain rfl := List.mem_singleton.mp hp
      refine hinside.stores (movout destAddr addrs) ?_ rfl
      rw [h]
      exact List.mem_append_right _ List.mem_cons_self
  · intro hall
    constructor
    · intro i hi hopcode
      rw [h] at hi
      rcases List.mem_append.mp hi with hi | hi
      · rcases List.mem_append.mp hi with hi | hi
        · exact hall _ (List.mem_append_left _ (List.mem_map_of_mem hi))
        · exact absurd hopcode (hcomputes i hi).1
      · obtain rfl := List.mem_singleton.mp hi
        cases hopcode
    · intro i hi hopcode
      rw [h] at hi
      rcases List.mem_append.mp hi with hi | hi
      · rcases List.mem_append.mp hi with hi | hi
        · rw [hloads i hi] at hopcode
          cases hopcode
        · exact absurd hopcode (hcomputes i hi).2
      · obtain rfl := List.mem_singleton.mp hi
        exact hall _ (List.mem_append_right _ (List.mem_singleton_self _))

/-- The instructions access the tile of every strip. -/
def Walks (walks : List (Strip × Operand)) (inputs : List Operand) (output : Operand) (o : Nat)
    (is : List Instruction) : Prop :=
  ∃ loads computes destAddr addrs,
    is = loads ++ computes ++ [movout destAddr addrs] ∧ (∀ i ∈ loads, i.opcode = .MOVIN) ∧
      (∀ i ∈ computes, i.Computes) ∧
      List.Forall₂ (fun w p => w.1.addrs (o % w.1.rows) = some p.1 ∧ w.2 = p.2) walks
        (accessesOf inputs output loads addrs)

theorem Walks.addrs_some {walks : List (Strip × Operand)} {o : Nat} {is : List Instruction}
    (h : Walks walks inputs output o is) : ∀ w ∈ walks, ∃ as, w.1.addrs (o % w.1.rows) = some as := by
  intro w hw
  obtain ⟨loads, computes, destAddr, addrs, -, -, -, hparts⟩ := h
  obtain ⟨p, -, hp, -⟩ := Loops.exists_of_forall₂ hparts hw
  exact ⟨p.1, hp⟩

theorem Walks.inside_iff {walks : List (Strip × Operand)} {o : Nat} {t : Tile}
    (h : Walks walks inputs output o t.instructions) : t.Inside inputs output ↔
      ∀ w ∈ walks, ∀ as, w.1.addrs (o % w.1.rows) = some as → ∀ a ∈ as, a ∈ w.2.region := by
  obtain ⟨loads, computes, destAddr, addrs, hsplit, hloads, hcomputes, hparts⟩ := h
  rw [Tile.inside_iff hsplit hloads hcomputes]
  constructor
  · intro hall w hw as has
    obtain ⟨p, hp, heq, htensor⟩ := Loops.exists_of_forall₂ hparts hw
    obtain rfl := Option.some.inj (heq.symm.trans has)
    rw [htensor]
    exact hall p hp
  · intro hall p hp
    obtain ⟨w, hw, heq, htensor⟩ := Loops.exists_of_forall₂ hparts.flip hp
    rw [← htensor]
    exact hall w hw p.1 heq

/-- The accesses of the tiles stay in the operands exactly if every strip is bounded. -/
theorem ElementwiseNode.inside_iff (op : ElementwiseNode) {total perTile : Nat}
    {instructions : Nat → Nat → Option (List Instruction)} {tiles : List Tile}
    (h : op.tileLoop total perTile instructions = some tiles) {walks : List (Strip × Operand)}
    (hfollows : ∀ w ∈ walks, w.1.Follows total perTile)
    (hwalks : ∀ o < total, ∀ is, instructions o (min (total - o) perTile) = some is →
      Walks walks inputs output o is) :
    (∀ t ∈ tiles, t.Inside inputs output) ↔ ∀ w ∈ walks, w.1.Bounded w.2 := by
  obtain ⟨offsets, hoffsets, hall, hmem⟩ := op.mem_of_tileLoop h
  have hturn : ∀ o ∈ offsets, ∃ t ∈ tiles, Walks walks inputs output o t.instructions := by
    intro o ho
    obtain ⟨is, his⟩ := hall o ho
    exact ⟨op.tileOf is, (hmem _).mpr ⟨o, ho, is, his, rfl⟩,
      hwalks o (lt_of_mem_countUp hoffsets ho) is his⟩
  have hbounded : ∀ w ∈ walks, ((∀ a, w.1.Accesses a → a ∈ w.2.region) ↔ w.1.Bounded w.2) := by
    intro w hw
    obtain ⟨starts, hstarts, hrows⟩ := (hfollows w hw).exists_offsets hoffsets
    refine Strip.forall_accesses_iff hstarts (fun r hr => ?_) w.2
    obtain ⟨o, ho, rfl⟩ := (hrows r).mp hr
    obtain ⟨t, -, hwalk⟩ := hturn o ho
    exact hwalk.addrs_some w hw
  constructor
  · intro hinside w hw
    refine (hbounded w hw).mp ?_
    rintro a ⟨starts, hstarts, r, hr, as, has, ha⟩
    obtain ⟨starts', hstarts', hrows⟩ := (hfollows w hw).exists_offsets hoffsets
    obtain rfl := Option.some.inj (hstarts.symm.trans hstarts')
    obtain ⟨o, ho, rfl⟩ := (hrows r).mp hr
    obtain ⟨t, ht, hwalk⟩ := hturn o ho
    exact hwalk.inside_iff.mp (hinside t ht) w hw as has a ha
  · intro hall' t ht
    obtain ⟨o, ho, is, his, rfl⟩ := (hmem t).mp ht
    have hwalk := hwalks o (lt_of_mem_countUp hoffsets ho) is his
    refine (Walks.inside_iff (t := op.tileOf is) hwalk).mpr fun w hw as has a ha => ?_
    obtain ⟨starts, hstarts, hrows⟩ := (hfollows w hw).exists_offsets hoffsets
    exact (hbounded w hw).mpr (hall' w hw) a
      ⟨starts, hstarts, _, (hrows _).mpr ⟨o, ho, rfl⟩, as, has, ha⟩

end Tiles

/-! ## The strips of an operation -/

/-- The strip of an operand whose rows are the tokens. -/
def ElementwiseNode.along (op : ElementwiseNode) (counter : Counter) (total perTile rowBytes : Nat)
    (base : AddrType) : Strip where
  base := base
  rows := total
  perTile := perTile
  rowBytes := rowBytes
  req := op.config.dramReqSize
  counter := counter

theorem ElementwiseNode.along_follows (op : ElementwiseNode) (counter : Counter)
    (total perTile rowBytes : Nat) (base : AddrType) :
    (op.along counter total perTile rowBytes base).Follows total perTile := .inl ⟨rfl, rfl⟩

/-- The strip of an operand of which every tile reads the same bytes. -/
def ElementwiseNode.same (_ : ElementwiseNode) (counter : Counter) (total bytes req : Nat)
    (base : AddrType) : Strip where
  base := base
  rows := min 1 total
  perTile := 1
  rowBytes := bytes
  req := req
  counter := counter

theorem ElementwiseNode.along_addrs (op : ElementwiseNode) (counter : Counter)
    {total perTile rowBytes o : Nat} {offs : List Nat} (ho : o < total)
    (h : counter.loop (wrap (min (total - o) perTile * rowBytes)) op.config.dramReqSize = some offs)
    (base : AddrType) : (op.along counter total perTile rowBytes base).addrs
        (o % (op.along counter total perTile rowBytes base).rows) =
      some (addrSet (offs.map fun off => base + word (o * rowBytes) + counter.offset off)) := by
  change Strip.addrs _ (o % total) = _
  rw [Nat.mod_eq_of_lt ho]
  unfold Strip.addrs Strip.bytesAt along
  dsimp only
  rw [h]
  rfl

theorem ElementwiseNode.same_addrs (op : ElementwiseNode) (counter : Counter)
    {total bytes req o : Nat} {base : AddrType} {offs : List Nat} (ho : o < total)
    (h : counter.loop (wrap bytes) req = some offs) :
    (op.same counter total bytes req base).addrs (o % (op.same counter total bytes req base).rows) =
      some (addrSet (offs.map fun off => base + word 0 + counter.offset off)) := by
  have hrows : min 1 total = 1 := Nat.min_eq_left (by omega)
  change Strip.addrs _ (o % min 1 total) = _
  rw [hrows, Nat.mod_one]
  unfold Strip.addrs Strip.bytesAt Strip.start same
  dsimp only
  rw [hrows, Nat.zero_mul, Nat.sub_zero, Nat.min_self, Nat.one_mul, h]
  rfl

theorem ElementwiseNode.same_follows (op : ElementwiseNode) (counter : Counter)
    (total perTile bytes req : Nat) (base : AddrType) :
    (op.same counter total bytes req base).Follows total perTile := .inr ⟨rfl, rfl⟩

end OnnxSim
