import OnnxSim.Dram

/-!
# Addresses within a channel

`DramRamulator2::push` takes the bits of the channel out of an address before it hands the access to the
memory of the channel. The bits that it takes out are the lowest bits of the chunk number, and the channel
is a hash of the whole number. Still no two chunks of a channel get the same address: the hash is linear,
and it tells apart any two numbers that differ in those bits only (`parity_separates`).
-/

namespace OnnxSim

/-- `mem_fetch`: what the memory of a channel is given. -/
structure MemFetch where
  addr : AddrType
  size : Nat
  write : Bool
  request : Bool
  originData : MemoryAccess

namespace DramRamulator2

/-- `_tx_log2`. -/
def txLog2 (config : SimulationConfig) : Nat := Nat.log2 config.dramReqSize

/-- `_tx_ch_log2`. -/
def txChLog2 (config : SimulationConfig) : Nat := Nat.log2 config.dramChannels + txLog2 config

/-- What `DramRamulator2::push` pushes into the memory of the channel. -/
def push (config : SimulationConfig) (request : MemoryAccess) : Option MemFetch :=
  let atomicBytes : AddrType := BitVec.ofNat 64 config.dramReqSize
  let targetAddr := request.dramAddress
  let startAddr := targetAddr - targetAddr % atomicBytes
  if startAddr ≠ targetAddr ∨ request.size ≠ config.dramReqSize then none
  else some {
    addr := (targetAddr >>> txChLog2 config) <<< txLog2 config
    size := request.size
    write := request.write
    request := true
    originData := request }

/-! ## The bits of the hash -/

/-- The exclusive or of the bits of `x` at the taps. -/
def parity (x : BitVec 64) (taps : List Nat) : Bool :=
  taps.foldl (fun bit t => bit ^^ x.getLsbD t) false

theorem hashBit_zero (x : BitVec 64) (taps : List Nat) (i : Nat) :
    hashBit x 0 taps i = parity x taps := by
  have hzero : (0 : BitVec 32).getLsbD i = false := BitVec.getLsbD_zero
  unfold hashBit parity
  rw [hzero]

/-- The hash is linear. -/
theorem parity_xor (x y : BitVec 64) (taps : List Nat) :
    parity (x ^^^ y) taps = (parity x taps ^^ parity y taps) := by
  have hfold : ∀ b c, taps.foldl (fun bit t => bit ^^ (x ^^^ y).getLsbD t) (b ^^ c) =
      (taps.foldl (fun bit t => bit ^^ x.getLsbD t) b ^^
        taps.foldl (fun bit t => bit ^^ y.getLsbD t) c) := by
    induction taps with
    | nil => exact fun _ _ => rfl
    | cons t taps ih =>
      intro b c
      have hswap : ((b ^^ c) ^^ (x ^^^ y).getLsbD t) = ((b ^^ x.getLsbD t) ^^ (c ^^ y.getLsbD t)) := by
        rw [BitVec.getLsbD_xor]
        cases b <;> cases c <;> cases x.getLsbD t <;> cases y.getLsbD t <;> rfl
      rw [List.foldl_cons, List.foldl_cons, List.foldl_cons, hswap, ih]
  exact hfold false false

theorem toUlong_injective {l l' : List Bool} (hlength : l.length = l'.length)
    (h : toUlong l = toUlong l') : l = l' := by
  induction l generalizing l' with
  | nil => exact (List.length_eq_zero_iff.mp hlength.symm).symm
  | cons b l ih =>
    cases l' with
    | nil => cases hlength
    | cons b' l' =>
      unfold toUlong at h
      have hb : b = b' := by
        cases b <;> cases b' <;> simp at h <;> first | rfl | omega
      subst hb
      rw [ih (Nat.succ.inj hlength) (by omega)]

/-- The lowest `k` bits. -/
theorem toUlong_mod (l : List Bool) (k : Nat) : toUlong l % 2 ^ k = toUlong (l.take k) := by
  induction l generalizing k with
  | nil => simp [toUlong]
  | cons b l ih =>
    cases k with
    | zero => simp [toUlong, Nat.mod_one]
    | succ k =>
      have hb : b.toNat ≤ 1 := Bool.toNat_le b
      have hlow : (b.toNat + 2 * toUlong l) % 2 = b.toNat := by omega
      have hhigh : (b.toNat + 2 * toUlong l) / 2 = toUlong l := by omega
      unfold toUlong
      rw [List.take_succ_cons, Nat.pow_succ', Nat.mod_mul, hlow, hhigh, ih]

/-! ## The channel -/

/-- The taps of the hash for `2 ^ k` channels. -/
def bankTaps (k : Nat) : List (List Nat) := (ipolyTaps (max 16 (2 ^ k))).getD []

/-- The channel of an address, for up to 64 channels, is made of the first `k` bits of the hash. -/
theorem getChannelId_eq {config : SimulationConfig} {k : Nat} (hk : k ≤ 6)
    (hchannels : config.dramChannels = 2 ^ k) (a : AddrType) :
    getChannelId config a = some (toUlong (((bankTaps k).take k).map (parity (chunk config a)))) := by
  have hbits : ∀ taps : List (List Nat),
      taps.mapIdx (fun i ts => hashBit (chunk config a) 0 ts i) = taps.map (parity (chunk config a)) := by
    intro taps
    refine List.ext_getElem? fun i => ?_
    rw [List.getElem?_mapIdx, List.getElem?_map]
    simp only [hashBit_zero]
  unfold getChannelId
  rw [hchannels]
  by_cases h4 : k < 4
  · have hlt : 2 ^ k < 16 := Nat.pow_lt_pow_right (by decide) h4
    have hmax : max 16 (2 ^ k) = 16 := Nat.max_eq_left (Nat.le_of_lt hlt)
    rw [if_neg (Nat.not_le.mpr hlt)]
    unfold bankTaps ipolyHashFunction
    rw [hmax]
    simp only [ipolyTaps, Option.map_some, Option.getD_some, hbits]
    rw [toUlong_mod, List.map_take]
  · obtain rfl | rfl | rfl : k = 4 ∨ k = 5 ∨ k = 6 := by omega
    all_goals
      rw [if_pos (by decide)]
      unfold bankTaps ipolyHashFunction
      rw [List.map_take, ← hbits]
      rfl

/-- The hash of a number below the number of channels is 0 for 0 only. -/
theorem parity_separates : ∀ k ≤ 6, ∀ d < 2 ^ k,
    (∀ ts ∈ (bankTaps k).take k, parity (BitVec.ofNat 64 d) ts = false) → d = 0 := by
  decide +kernel

/-- Chunks of one channel that differ in the lowest `k` bits only are equal. -/
theorem chunk_injective {config : SimulationConfig} {k : Nat} (hk : k ≤ 6)
    (hchannels : config.dramChannels = 2 ^ k) {a b : AddrType}
    (hch : getChannelId config a = getChannelId config b)
    (hhigh : (chunk config a).toNat / 2 ^ k = (chunk config b).toNat / 2 ^ k) :
    chunk config a = chunk config b := by
  rw [getChannelId_eq hk hchannels, getChannelId_eq hk hchannels, Option.some_inj] at hch
  have hbits := toUlong_injective (by rw [List.length_map, List.length_map]) hch
  have hlow : (chunk config a ^^^ chunk config b).toNat < 2 ^ k := by
    rw [BitVec.toNat_xor]
    refine Nat.lt_of_div_eq_zero (Nat.two_pow_pos k) ?_
    rw [Nat.xor_div_two_pow, hhigh, Nat.xor_self]
  have hzero : (chunk config a ^^^ chunk config b).toNat = 0 := by
    refine parity_separates k hk _ hlow fun ts hts => ?_
    rw [BitVec.ofNat_toNat, BitVec.setWidth_eq, parity_xor, List.map_inj_left.mp hbits ts hts,
      Bool.xor_self]
  have hxor : chunk config a ^^^ chunk config b = 0#64 := BitVec.eq_of_toNat_eq hzero
  exact BitVec.xor_eq_zero_iff.mp hxor

/-! ## The local address -/

/-- An access to one whole chunk. -/
structure WholeChunk (config : SimulationConfig) (access : MemoryAccess) : Prop where
  aligned : config.dramReqSize ∣ access.dramAddress.toNat
  size : access.size = config.dramReqSize

section Push

variable {config : SimulationConfig} {k r : Nat}

theorem accepted (hk : k ≤ 6) (hr : r < 32) (hchannels : config.dramChannels = 2 ^ k)
    (hsize : config.dramReqSize = 2 ^ r) : config.Accepted := by
  refine ⟨hsize ▸ Nat.two_pow_pos r, hsize ▸ Nat.pow_lt_pow_right (by decide) hr,
    hchannels ▸ Nat.two_pow_pos k, ?_⟩
  rw [hchannels]
  obtain hle | rfl | rfl : k ≤ 4 ∨ k = 5 ∨ k = 6 := by omega
  · exact .inl (Nat.pow_le_pow_right (by decide) hle)
  · exact .inr (.inl rfl)
  · exact .inr (.inr rfl)

/-- The access is pushed with the number of its chunk within the channel. -/
theorem push_eq_some (hk : k ≤ 6) (hr : r < 32) (hchannels : config.dramChannels = 2 ^ k)
    (hsize : config.dramReqSize = 2 ^ r) {x : MemoryAccess} (hx : WholeChunk config x) :
    ∃ f, push config x = some f ∧
      f.addr.toNat = (chunk config x.dramAddress).toNat / 2 ^ k * 2 ^ r := by
  have haccepted := accepted hk hr hchannels hsize
  have hmod : x.dramAddress % BitVec.ofNat 64 config.dramReqSize = 0#64 := by
    apply BitVec.eq_of_toNat_eq
    rw [BitVec.toNat_umod, BitVec.toNat_ofNat, Nat.mod_eq_of_lt (Nat.lt_trans haccepted.2.1 (by decide))]
    exact Nat.mod_eq_zero_of_dvd hx.aligned
  unfold push
  simp only [hmod, BitVec.sub_zero, ne_eq, not_true_eq_false, hx.size, or_self, if_false]
  refine ⟨_, rfl, ?_⟩
  unfold txChLog2 txLog2
  rw [hchannels, hsize, Nat.log2_two_pow, Nat.log2_two_pow, chunk_toNat haccepted, hsize,
    BitVec.toNat_shiftLeft, BitVec.toNat_ushiftRight, Nat.shiftLeft_eq, Nat.shiftRight_eq_div_pow,
    Nat.add_comm k r, Nat.pow_add, ← Nat.div_div_eq_div_mul]
  refine Nat.mod_eq_of_lt (Nat.lt_of_le_of_lt ?_ x.dramAddress.isLt)
  calc x.dramAddress.toNat / 2 ^ r / 2 ^ k * 2 ^ r ≤ x.dramAddress.toNat / 2 ^ r * 2 ^ r :=
        Nat.mul_le_mul_right _ (Nat.div_le_self _ _)
    _ ≤ x.dramAddress.toNat := Nat.div_mul_le_self _ _

/-- Within a channel, different chunks get different addresses. -/
theorem push_injective (hk : k ≤ 6) (hr : r < 32) (hchannels : config.dramChannels = 2 ^ k)
    (hsize : config.dramReqSize = 2 ^ r) (x y : MemoryAccess) (hx : WholeChunk config x)
    (hy : WholeChunk config y) : ∃ f g, push config x = some f ∧ push config y = some g ∧
      (x.dramAddress ≠ y.dramAddress →
        getChannelId config x.dramAddress = getChannelId config y.dramAddress → f.addr ≠ g.addr) := by
  obtain ⟨f, hf, hfaddr⟩ := push_eq_some hk hr hchannels hsize hx
  obtain ⟨g, hg, hgaddr⟩ := push_eq_some hk hr hchannels hsize hy
  refine ⟨f, g, hf, hg, fun hne hch haddr => hne ?_⟩
  rw [haddr, hgaddr] at hfaddr
  have hhigh := Nat.eq_of_mul_eq_mul_right (Nat.two_pow_pos r) hfaddr
  have hchunk := congrArg BitVec.toNat (chunk_injective hk hchannels hch hhigh.symm)
  have haccepted := accepted hk hr hchannels hsize
  rw [chunk_toNat haccepted, chunk_toNat haccepted] at hchunk
  apply BitVec.eq_of_toNat_eq
  rw [← Nat.div_mul_cancel hx.aligned, hchunk, Nat.div_mul_cancel hy.aligned]

end Push

/-- Thirty-two channels of chunks of 32 bytes. -/
def wideDram : SimulationConfig :=
  { numCores := 1, coreConfig := fun _ => {}, dramChannels := 32, dramReqSize := 32 }

/-- A read of the chunk of `wideDram` at `dramAddress`. -/
def chunkRead (dramAddress : AddrType) : MemoryAccess where
  ptr := .heap 0
  id := 0
  dramAddress := dramAddress
  size := 32
  objectSize := 32
  write := false
  request := true
  coreId := 0
  bufferId := 0

/-- The chunks 0 and 37 are of one channel. -/
theorem push_injective_wideDram : ∃ x y f g, x.dramAddress ≠ y.dramAddress ∧
    getChannelId wideDram x.dramAddress = getChannelId wideDram y.dramAddress ∧
    push wideDram x = some f ∧ push wideDram y = some g ∧ f.addr ≠ g.addr := by
  obtain ⟨f, g, hf, hg, hne⟩ := push_injective (k := 5) (r := 5) (by decide) (by decide)
    (show wideDram.dramChannels = 2 ^ 5 from rfl) (show wideDram.dramReqSize = 2 ^ 5 from rfl)
    (chunkRead 0#64) (chunkRead 1184#64) ⟨by decide, rfl⟩ ⟨by decide, rfl⟩
  have hchannel : getChannelId wideDram 0#64 = getChannelId wideDram 1184#64 := by decide
  exact ⟨chunkRead 0#64, chunkRead 1184#64, f, g, by decide, hchannel, hf, hg,
    hne (by decide) hchannel⟩

end DramRamulator2

end OnnxSim
