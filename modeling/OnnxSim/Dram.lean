import OnnxSim.Common
import Mathlib.Tactic

/-!
# Memory channels

The channel of an access (`Hashing.cc`, `Dram::get_channel_id`) and the memory node the simulator
sends it to (`Simulator::get_dest_node`): an exclusive-or hash of the number of its
`dram_req_size`-byte chunk.
-/

namespace OnnxSim

/-! ## The hash -/

/-- The bits of the hashed number that make up each bit of the channel. -/
def ipolyTaps : Nat → Option (List (List Nat))
  | 16 => some
    [[11, 10, 9, 8, 6, 4, 3, 0], [12, 8, 7, 6, 5, 3, 1, 0], [9, 8, 7, 6, 4, 2, 1],
      [10, 9, 8, 7, 5, 3, 2]]
  | 32 => some
    [[13, 12, 11, 10, 9, 6, 5, 3, 0], [14, 13, 12, 11, 10, 7, 6, 4, 1],
      [14, 10, 9, 8, 7, 6, 3, 2, 0], [11, 10, 9, 8, 7, 4, 3, 1], [12, 11, 10, 9, 8, 5, 4, 2]]
  | 64 => some
    [[18, 17, 16, 15, 12, 10, 6, 5, 0], [15, 13, 12, 11, 10, 7, 5, 1, 0],
      [16, 14, 13, 12, 11, 8, 6, 2, 1], [17, 15, 14, 13, 12, 9, 7, 3, 2],
      [18, 16, 15, 14, 13, 10, 8, 4, 3], [17, 16, 15, 14, 11, 9, 5, 4]]
  | _ => none

/-- The number whose binary digits are `bits`, the lowest first. -/
def toUlong : List Bool → Nat
  | [] => 0
  | b :: bits => b.toNat + 2 * toUlong bits

/-- Bit `i` of the channel: the taps of the number and bit `i` of the index. -/
def hashBit (higherBits : BitVec 64) (index : BitVec 32) (taps : List Nat) (i : Nat) : Bool :=
  taps.foldl (fun bit t => bit ^^ higherBits.getLsbD t) (index.getLsbD i)

/-- `none` where the source exits: only 16, 32 and 64 banks are supported. -/
def ipolyHashFunction (higherBits : BitVec 64) (index : BitVec 32) (bankSetNum : Nat) : Option Nat :=
  (ipolyTaps bankSetNum).map fun taps =>
    toUlong (taps.mapIdx fun i ts => hashBit higherBits index ts i)

/-! ## The channel of an address -/

/-- `dram_address / dram_req_size`. -/
def chunk (config : SimulationConfig) (a : AddrType) : BitVec 64 :=
  a / BitVec.ofNat 64 config.dramReqSize

/-- `Dram::get_channel_id` of an access at address `a`. -/
def getChannelId (config : SimulationConfig) (a : AddrType) : Option Nat :=
  if 16 ≤ config.dramChannels then
    ipolyHashFunction (chunk config a) 0 config.dramChannels
  else (ipolyHashFunction (chunk config a) 0 16).map (· % config.dramChannels)

/-- `Simulator::get_dest_node`: requests go to the node of their channel, responses to a port of
their core. -/
def getDestNode (config : SimulationConfig) (access : MemoryAccess) : Option Nat :=
  let ports := config.icntInjectionPortsPerCore
  (getChannelId config access.dramAddress).map fun channel =>
    if access.request then config.numCores * ports + channel
    else access.coreId.toNat * ports + channel % ports

/-- The two assertions of `DramRamulator2::push`. -/
def DramAsserts (config : SimulationConfig) (request : MemoryAccess) : Prop :=
  let atomicBytes : AddrType := BitVec.ofNat 64 config.dramReqSize
  let targetAddr := request.dramAddress
  let startAddr := targetAddr - targetAddr % atomicBytes
  startAddr = targetAddr ∧ request.size = config.dramReqSize

instance (config : SimulationConfig) (request : MemoryAccess) :
    Decidable (DramAsserts config request) :=
  inferInstanceAs (Decidable (_ ∧ _))

/-- The channel counts the hash supports. -/
def SimulationConfig.Accepted (config : SimulationConfig) : Prop :=
  0 < config.dramReqSize ∧ config.dramReqSize < 2 ^ 32 ∧ 0 < config.dramChannels ∧
    (config.dramChannels ≤ 16 ∨ config.dramChannels = 32 ∨ config.dramChannels = 64)

/-! ## Chunks -/

section Chunks

variable {config : SimulationConfig}

theorem chunk_toNat (h : config.Accepted) (a : AddrType) :
    (chunk config a).toNat = a.toNat / config.dramReqSize := by
  rw [chunk, BitVec.toNat_udiv, BitVec.toNat_ofNat, Nat.mod_eq_of_lt]
  exact Nat.lt_trans h.2.1 (by decide)

/-- The channel is a function of the chunk. -/
theorem getChannelId_congr {a b : AddrType} (h : chunk config a = chunk config b) :
    getChannelId config a = getChannelId config b := by
  simp only [getChannelId, h]

theorem getChannelId_isSome (h : config.Accepted) (a : AddrType) :
    ∃ ch, getChannelId config a = some ch := by
  unfold getChannelId
  obtain ⟨-, -, -, hle | h32 | h64⟩ := h
  · by_cases h16 : 16 ≤ config.dramChannels
    · rw [if_pos h16, show config.dramChannels = 16 by omega]
      exact ⟨_, rfl⟩
    · rw [if_neg h16]
      exact ⟨_, rfl⟩
  · rw [h32, if_pos (by decide)]
    exact ⟨_, rfl⟩
  · rw [h64, if_pos (by decide)]
    exact ⟨_, rfl⟩

theorem toUlong_lt (bits : List Bool) : toUlong bits < 2 ^ bits.length := by
  induction bits with
  | nil => decide
  | cons b bits ih =>
    have hb : b.toNat ≤ 1 := Bool.toNat_le b
    simp only [toUlong, List.length_cons, Nat.pow_succ]
    omega

/-- The hash names one of the channels. -/
theorem getChannelId_lt (h : config.Accepted) {a : AddrType} {ch : Nat}
    (hch : getChannelId config a = some ch) : ch < config.dramChannels := by
  have hbound : ∀ {n k : Nat} {taps : List (List Nat)}, ipolyTaps n = some taps →
      taps.length = k → ∀ x, ipolyHashFunction (chunk config a) 0 n = some x → x < 2 ^ k := by
    intro n k taps ht hk x hx
    unfold ipolyHashFunction at hx
    rw [ht, Option.map_some, Option.some.injEq] at hx
    rw [← hx, ← hk]
    simpa using toUlong_lt (taps.mapIdx fun i ts => hashBit (chunk config a) 0 ts i)
  unfold getChannelId at hch
  split at hch
  · obtain ⟨-, -, -, hle | h32 | h64⟩ := h
    · have h16 : config.dramChannels = 16 := by omega
      rw [h16] at hch ⊢
      exact hbound rfl rfl ch hch
    · rw [h32] at hch ⊢
      exact hbound rfl rfl ch hch
    · rw [h64] at hch ⊢
      exact hbound rfl rfl ch hch
  · obtain ⟨x, -, rfl⟩ := Option.map_eq_some_iff.mp hch
    exact Nat.mod_lt _ h.2.2.1

/-- The chunk number `q` itself, as an address of its first byte. -/
theorem chunk_mul (h : config.Accepted) {q : Nat} (hq : q < 2 ^ 32) :
    chunk config (BitVec.ofNat 64 (q * config.dramReqSize)) = BitVec.ofNat 64 q := by
  apply BitVec.eq_of_toNat_eq
  have hlt : q * config.dramReqSize < 2 ^ 64 := by
    calc q * config.dramReqSize < 2 ^ 32 * 2 ^ 32 := Nat.mul_lt_mul'' hq h.2.1
      _ = 2 ^ 64 := by norm_num
  rw [chunk_toNat h, BitVec.toNat_ofNat, BitVec.toNat_ofNat, Nat.mod_eq_of_lt hlt,
    Nat.mod_eq_of_lt (by omega), Nat.mul_div_cancel _ h.1]

/-- Two neighbouring chunks of different channels, the second with an odd number. -/
theorem exists_neighbours (h : config.Accepted) (hch : config.dramChannels ≠ 1) :
    ∃ q, q < 3 ∧ q % 2 = 0 ∧ ∀ a b, chunk config a = BitVec.ofNat 64 q →
      chunk config b = BitVec.ofNat 64 (q + 1) → getChannelId config a ≠ getChannelId config b := by
  obtain ⟨-, -, hpos, hsup⟩ := h
  by_cases h3 : config.dramChannels = 3
  · -- the hash sends the chunks 0 and 1 to 0 and 3, one channel of three
    refine ⟨2, by decide, rfl, fun a b ha hb => ?_⟩
    simp only [getChannelId, ha, hb, h3]
    decide
  · refine ⟨0, by decide, rfl, fun a b ha hb => ?_⟩
    simp only [getChannelId, ha, hb]
    have hcases : config.dramChannels ≤ 15 ∨ config.dramChannels = 16 ∨
        config.dramChannels = 32 ∨ config.dramChannels = 64 := by omega
    rcases hcases with hle | h16 | h32 | h64
    · rw [if_neg (by omega), if_neg (by omega)]
      have h0 : ipolyHashFunction (BitVec.ofNat 64 0) 0 16 = some 0 := by decide
      have h1 : ipolyHashFunction (BitVec.ofNat 64 (0 + 1)) 0 16 = some 3 := by decide
      rw [h0, h1]
      simp only [Option.map_some, ne_eq, Option.some.injEq]
      generalize config.dramChannels = n at *
      interval_cases n <;> simp_all
    · rw [h16]
      decide
    · rw [h32]
      decide
    · rw [h64]
      decide

end Chunks

/-! ## Pushing -/

/-- The DRAM takes a request that begins at a multiple of its request size and has this size. -/
theorem dramAsserts_iff {config : SimulationConfig} (hreq : config.dramReqSize < 2 ^ 32)
    {request : MemoryAccess} : DramAsserts config request ↔
      config.dramReqSize ∣ request.dramAddress.toNat ∧ request.size = config.dramReqSize := by
  have hatomic : (BitVec.ofNat 64 config.dramReqSize).toNat = config.dramReqSize := by
    rw [BitVec.toNat_ofNat]
    exact Nat.mod_eq_of_lt (hreq.trans (by decide))
  have hstart : request.dramAddress - request.dramAddress % BitVec.ofNat 64 config.dramReqSize =
      request.dramAddress ↔ config.dramReqSize ∣ request.dramAddress.toNat := by
    rw [sub_eq_self, BitVec.toNat_eq, BitVec.toNat_umod, hatomic]
    exact (Nat.dvd_iff_mod_eq_zero).symm
  exact and_congr_left' hstart

end OnnxSim
