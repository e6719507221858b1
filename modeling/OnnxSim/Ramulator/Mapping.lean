import OnnxSim.Ramulator.Run

/-!
# The mapping of addresses

`decode_mem_addr` of `Memory.h` cuts the number of a transaction into the numbers of its channel, rank,
bank group, bank, row and column, in one of three orders. What it makes of any address is an address of
the channel that `Ramulator::push` writes into it (`decodeMemAddr_addressed`), and up to the capacity no
two transactions have the same numbers (`decodeMemAddr_injective`). Mapping files are left out.
-/

namespace OnnxSim.Ram

/-- `Memory::Type`. -/
inductive Mapping
  | ChRaBaRoCo | RoBaRaCoCh | RoCoBaRaCh
  deriving DecidableEq

/-- The levels, from the lowest bits on. -/
def Mapping.order : Mapping → List Level
  | ChRaBaRoCo => [.Column, .Row, .Bank, .BankGroup, .Rank, .Channel]
  | RoBaRaCoCh => [.Channel, .Column, .Rank, .BankGroup, .Bank, .Row]
  | RoCoBaRaCh => [.Channel, .Rank, .BankGroup, .Bank, .Column, .Row]

variable (spec : Spec)

/-- `calc_log2` is `Nat.log2`; a column of the address is a whole burst. -/
def addrBits (level : Level) : Nat :=
  (spec.count level).log2 - if level = .Column then spec.prefetchSize.log2 else 0

def txBits : Nat := (spec.prefetchSize * spec.channelWidth / 8).log2

/-- `slice_lower_bits`: the bits cut off, and those left in `addr`. -/
def sliceLowerBits (addr : AddrType) (bits : Nat) : Nat × AddrType :=
  ((addr &&& BitVec.ofNat 64 (2 ^ bits - 1)).toNat, addr >>> bits)

/-- The loops over the levels. -/
def slices : List Level → AddrType → AddrVec → AddrVec
  | [], _, addrVec => addrVec
  | level :: rest, addr, addrVec =>
    let (lbits, addr) := sliceLowerBits addr (addrBits spec level)
    slices rest addr (addrVec.set level.toNat lbits)

def decodeMemAddr (type : Mapping) (addr : AddrType) : AddrVec :=
  slices spec type.order (addr >>> txBits spec) (List.replicate 6 0)

/-- The bits of some levels. -/
def bitsOf (levels : List Level) : Nat := (levels.map (addrBits spec)).sum

variable {spec} {levels : List Level} {addr : AddrType} {addrVec : AddrVec} {bits : Nat}

theorem sliceLowerBits_fst (hbits : bits ≤ 64) :
    (sliceLowerBits addr bits).1 = addr.toNat % 2 ^ bits := by
  have hpow : 2 ^ bits ≤ 2 ^ 64 := Nat.pow_le_pow_right (by decide) hbits
  have hpos : 0 < 2 ^ bits := Nat.two_pow_pos bits
  unfold sliceLowerBits
  rw [BitVec.toNat_and, BitVec.toNat_ofNat, Nat.mod_eq_of_lt (by omega), Nat.and_two_pow_sub_one_eq_mod]

theorem sliceLowerBits_snd : (sliceLowerBits addr bits).2.toNat = addr.toNat / 2 ^ bits := by
  unfold sliceLowerBits
  rw [BitVec.toNat_ushiftRight, Nat.shiftRight_eq_div_pow]

theorem slices_length : (slices spec levels addr addrVec).length = addrVec.length := by
  induction levels generalizing addr addrVec with
  | nil => rfl
  | cons level rest ih => exact ih.trans List.length_set

theorem Level.toNat_lt (level : Level) : level.toNat < 6 := by
  cases level <;> decide

theorem get_set_self (hlength : addrVec.length = 6) (level : Level) (x : Int) :
    AddrVec.get (addrVec.set level.toNat x) level.toNat = x := by
  have hlt := level.toNat_lt
  unfold AddrVec.get
  rw [List.getD_eq_getElem?_getD, List.getElem?_set_self (by omega)]
  rfl

theorem get_set_of_ne {k : Nat} {level : Level} (h : level.toNat ≠ k) (x : Int) :
    AddrVec.get (addrVec.set level.toNat x) k = addrVec.get k := by
  unfold AddrVec.get
  rw [List.getD_eq_getElem?_getD, List.getD_eq_getElem?_getD, List.getElem?_set_ne h]

/-- The numbers of the other levels stay. -/
theorem slices_get_of_not_mem {k : Nat} (hk : ∀ level ∈ levels, level.toNat ≠ k) :
    (slices spec levels addr addrVec).get k = addrVec.get k := by
  induction levels generalizing addr addrVec with
  | nil => rfl
  | cons level rest ih =>
    have hset : AddrVec.get (addrVec.set level.toNat
        ((sliceLowerBits addr (addrBits spec level)).1 : Nat)) k = addrVec.get k :=
      get_set_of_ne (hk level List.mem_cons_self) _
    rw [← hset]
    exact ih fun level' h => hk level' (List.mem_cons_of_mem _ h)

/-- The number of a level that has been cut off. -/
theorem slices_get_head {level : Level} {rest : List Level} (hlength : addrVec.length = 6)
    (hrest : level ∉ rest) (hbits : addrBits spec level ≤ 64) :
    (slices spec (level :: rest) addr addrVec).get level.toNat =
      (addr.toNat % 2 ^ addrBits spec level : Nat) := by
  have hlater : (slices spec (level :: rest) addr addrVec).get level.toNat =
      AddrVec.get (addrVec.set level.toNat ((sliceLowerBits addr (addrBits spec level)).1 : Nat))
        level.toNat :=
    slices_get_of_not_mem fun level' h heq => by
      rw [DRAM.Level.eq_of_toNat heq] at h
      exact hrest h
  rw [hlater, get_set_self hlength, sliceLowerBits_fst hbits]

/-- Each number is below the power of two of its level. -/
theorem slices_get_lt (hlength : addrVec.length = 6) (hnodup : levels.Nodup)
    (hbits : ∀ level, addrBits spec level ≤ 64) {level : Level} (hlevel : level ∈ levels) :
    ∃ x : Nat, (slices spec levels addr addrVec).get level.toNat = x ∧ x < 2 ^ addrBits spec level := by
  induction levels generalizing addr addrVec with
  | nil => cases hlevel
  | cons first rest ih =>
    obtain ⟨hfirst, hrest⟩ := List.nodup_cons.mp hnodup
    rcases List.mem_cons.mp hlevel with rfl | hlevel
    · exact ⟨_, slices_get_head hlength hfirst (hbits level), Nat.mod_lt _ (Nat.two_pow_pos _)⟩
    · exact ih (List.length_set.trans hlength) hrest hlevel

/-- The numbers of some levels determine the bits that they have been cut from. -/
theorem slices_injective {a b : AddrType} {v w : AddrVec} (hv : v.length = 6) (hw : w.length = 6)
    (hnodup : levels.Nodup) (hbits : ∀ level, addrBits spec level ≤ 64)
    (h : slices spec levels a v = slices spec levels b w) :
    a.toNat % 2 ^ bitsOf spec levels = b.toNat % 2 ^ bitsOf spec levels := by
  induction levels generalizing a b v w with
  | nil =>
    change a.toNat % 1 = b.toNat % 1
    rw [Nat.mod_one, Nat.mod_one]
  | cons level rest ih =>
    obtain ⟨hfirst, hrest⟩ := List.nodup_cons.mp hnodup
    have hlow : a.toNat % 2 ^ addrBits spec level = b.toNat % 2 ^ addrBits spec level := by
      have hget := congrArg (AddrVec.get · level.toNat) h
      simp only [slices_get_head hv hfirst (hbits level), slices_get_head hw hfirst (hbits level)] at hget
      exact Int.ofNat_inj.mp hget
    have hhigh := ih (List.length_set.trans hv) (List.length_set.trans hw) hrest h
    have hshift : ∀ x : AddrType, (x >>> addrBits spec level).toNat = x.toNat / 2 ^ addrBits spec level :=
      fun _ => sliceLowerBits_snd
    rw [hshift, hshift] at hhigh
    have hsum : bitsOf spec (level :: rest) = addrBits spec level + bitsOf spec rest := List.sum_cons
    rw [hsum, Nat.pow_add, Nat.mod_mul, Nat.mod_mul, hlow, hhigh]

theorem Mapping.order_nodup (type : Mapping) : type.order.Nodup := by
  cases type <;> decide

theorem Mapping.mem_order (type : Mapping) (level : Level) : level ∈ type.order := by
  cases type <;> cases level <;> decide

/-- A level has no more bits than an `int`. -/
theorem addrBits_le (hint : ∀ level, spec.count level < 2 ^ 31) (level : Level) :
    addrBits spec level ≤ 64 := by
  have hlog : (spec.count level).log2 ≤ 31 := by
    by_cases hzero : spec.count level = 0
    · rw [hzero]
      decide
    · exact Nat.le_of_lt ((Nat.log2_lt hzero).mpr (hint level))
  unfold addrBits
  omega

/-- What `Ramulator::push` makes of any address is an address of its channel. -/
theorem decodeMemAddr_addressed (type : Mapping) (addr : AddrType) (id : Nat)
    (hcount : ∀ level : Level, level.toNat ≤ Level.Bank.toNat → spec.count level ≠ 0)
    (hint : ∀ level, spec.count level < 2 ^ 31) :
    Addressed spec id ((decodeMemAddr spec type addr).set 0 id) := by
  have hlength : (decodeMemAddr spec type addr).length = 6 := slices_length
  refine ⟨List.length_set.trans hlength, get_set_self hlength .Channel id, fun level hpos hle => ?_⟩
  have hzero : Level.Channel.toNat ≠ level.toNat := Nat.ne_of_lt hpos
  have hkeep : AddrVec.get ((decodeMemAddr spec type addr).set 0 id) level.toNat =
      (decodeMemAddr spec type addr).get level.toNat := get_set_of_ne hzero id
  obtain ⟨x, hget, hlt⟩ : ∃ x : Nat, (decodeMemAddr spec type addr).get level.toNat = x ∧
      x < 2 ^ addrBits spec level :=
    slices_get_lt rfl type.order_nodup (addrBits_le hint) (type.mem_order level)
  have hbound : 2 ^ addrBits spec level ≤ spec.count level :=
    (Nat.pow_le_pow_right (by decide) (Nat.sub_le _ _)).trans (Nat.log2_self_le (hcount level hle))
  rw [hkeep, hget]
  omega

theorem decodeMemAddr_addressed_hbm :
    let spec := HBM.spec .HBM_1Gb .HBM_1Gbps 8 1
    Addressed spec 3 ((decodeMemAddr spec .ChRaBaRoCo 0xffffffffffffffff).set 0 3) := by
  refine decodeMemAddr_addressed .ChRaBaRoCo _ 3
    (HBM.standard .HBM_1Gb .HBM_1Gbps (by decide) (by decide)).count fun level => ?_
  cases level <;> decide +kernel

/-- Up to the capacity, the addresses that are decoded alike are those of one transaction. -/
theorem decodeMemAddr_injective (type : Mapping) {a b : AddrType}
    (hint : ∀ level, spec.count level < 2 ^ 31)
    (ha : a.toNat < 2 ^ (txBits spec + bitsOf spec type.order))
    (hb : b.toNat < 2 ^ (txBits spec + bitsOf spec type.order)) :
    decodeMemAddr spec type a = decodeMemAddr spec type b ↔ a >>> txBits spec = b >>> txBits spec := by
  constructor
  · intro h
    have hmod := slices_injective rfl rfl type.order_nodup (addrBits_le hint) h
    have hshift : ∀ x : AddrType, x.toNat < 2 ^ (txBits spec + bitsOf spec type.order) →
        (x >>> txBits spec).toNat < 2 ^ bitsOf spec type.order := by
      intro x hx
      rw [BitVec.toNat_ushiftRight, Nat.shiftRight_eq_div_pow]
      rw [Nat.pow_add] at hx
      exact Nat.div_lt_of_lt_mul hx
    rw [Nat.mod_eq_of_lt (hshift a ha), Nat.mod_eq_of_lt (hshift b hb)] at hmod
    exact BitVec.eq_of_toNat_eq hmod
  · intro h
    unfold decodeMemAddr
    rw [h]

/-- An organisation with 8 channels of one rank, where neighbouring transactions go to neighbouring
channels. -/
theorem decodeMemAddr_injective_hbm :
    let spec := HBM.spec .HBM_1Gb .HBM_1Gbps 8 1
    decodeMemAddr spec .RoBaRaCoCh 0x12340 = [2, 0, 0, 1, 0, 35] ∧
      (decodeMemAddr spec .RoBaRaCoCh 0x12340 = decodeMemAddr spec .RoBaRaCoCh 0x1235f ↔
        (0x12340 : AddrType) >>> txBits spec = 0x1235f >>> txBits spec) := by
  refine ⟨by decide +kernel, decodeMemAddr_injective .RoBaRaCoCh (fun level => ?_)
    (by decide +kernel) (by decide +kernel)⟩
  cases level <;> decide +kernel

end OnnxSim.Ram
