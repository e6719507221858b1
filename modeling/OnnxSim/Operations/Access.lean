import OnnxSim.Lib.Chunks
import OnnxSim.Operations.Basic

/-!
# Aligned accesses

`make_address` computes the index of an element in 32 bits and aligns its address to an access. Where a
whole number of elements fits in an access, two elements have the same aligned address exactly if their
indices are in the same group of those of an access.
-/

namespace OnnxSim

theorem SimulationConfig.alignAddress_ofNat (config : SimulationConfig) {a : Nat} (ha : a < 2 ^ 64)
    (hreq : config.dramReqSize < 2 ^ 64) :
    config.alignAddress (BitVec.ofNat 64 a) =
      BitVec.ofNat 64 (a / config.dramReqSize * config.dramReqSize) := by
  have hmod := Nat.mod_le a config.dramReqSize
  have hdiv := Nat.div_add_mod' a config.dramReqSize
  have hrem : BitVec.ofNat 64 a % BitVec.ofNat 64 config.dramReqSize =
      BitVec.ofNat 64 (a % config.dramReqSize) := by
    apply BitVec.eq_of_toNat_eq
    rw [BitVec.toNat_umod, BitVec.toNat_ofNat, BitVec.toNat_ofNat, BitVec.toNat_ofNat,
      Nat.mod_eq_of_lt ha, Nat.mod_eq_of_lt hreq, Nat.mod_eq_of_lt (Nat.lt_of_le_of_lt hmod ha)]
  unfold alignAddress
  rw [hrem]
  apply BitVec.eq_of_toNat_eq
  rw [BitVec.toNat_sub]
  simp only [BitVec.toNat_ofNat]
  omega

/-- A whole number of elements fits in an access. -/
structure SimulationConfig.Divides (config : SimulationConfig) : Prop where
  precision_pos : 0 < config.precision
  dvd : config.precision ∣ config.dramReqSize
  dramReqSize_pos : 0 < config.dramReqSize
  dramReqSize_lt : config.dramReqSize < 2 ^ 32

/-- The offset of the aligned chunk of an element. -/
def Node.chunk (node : Node) (index : Nat) : AddrType :=
  node.config.alignAddress (BitVec.ofNat 64 (index * node.config.precision))

/-- `make_address` has the index of an element in 32 bits. -/
theorem Node.elementAddress_eq (node : Node) (index : Nat) :
    node.elementAddress index = node.chunk (index % 2 ^ 32) := by
  unfold elementAddress chunk word
  rw [BitVec.ofNat_mul]

namespace SimulationConfig.Divides

variable {node : Node}

theorem mul_lt (h : node.config.Divides) {index : Nat} (hindex : index ≤ 2 ^ 32) :
    index * node.config.precision < 2 ^ 64 := by
  have hle := Nat.le_of_dvd h.dramReqSize_pos h.dvd
  have hlt := h.dramReqSize_lt
  calc index * node.config.precision ≤ 2 ^ 32 * node.config.precision :=
        Nat.mul_le_mul_right _ hindex
    _ < 2 ^ 32 * 2 ^ 32 := Nat.mul_lt_mul_of_pos_left (by omega) (by decide)
    _ = 2 ^ 64 := by decide

theorem mul_div (h : node.config.Divides) (index : Nat) :
    index * node.config.precision / node.config.dramReqSize =
      index / (node.config.dramReqSize / node.config.precision) := by
  obtain ⟨q, hq⟩ := h.dvd
  rw [hq, Nat.mul_div_cancel_left q h.precision_pos, Nat.mul_comm node.config.precision q,
    Nat.mul_div_mul_right _ _ h.precision_pos]

theorem toNat_chunk (h : node.config.Divides) {index : Nat} (hindex : index ≤ 2 ^ 32) :
    (node.chunk index).toNat =
      index / (node.config.dramReqSize / node.config.precision) * node.config.dramReqSize := by
  have hlt := h.dramReqSize_lt
  have hbytes := h.mul_lt hindex
  have hfloor := Nat.div_mul_le_self (index * node.config.precision) node.config.dramReqSize
  unfold Node.chunk
  rw [node.config.alignAddress_ofNat hbytes (by omega), BitVec.toNat_ofNat, ← h.mul_div]
  exact Nat.mod_eq_of_lt (by omega)

/-- Two elements have the same chunk if their indices are in the same group of those of an access. -/
theorem chunk_inj (h : node.config.Divides) {base : AddrType} {i j : Nat} (hi : i ≤ 2 ^ 32)
    (hj : j ≤ 2 ^ 32) :
    base + node.chunk i = base + node.chunk j ↔
      i / (node.config.dramReqSize / node.config.precision) =
        j / (node.config.dramReqSize / node.config.precision) := by
  rw [BitVec.add_right_inj, ← BitVec.toNat_inj, h.toNat_chunk hi, h.toNat_chunk hj]
  exact Nat.mul_left_inj h.dramReqSize_pos.ne'

theorem elems_pos (h : node.config.Divides) :
    0 < node.config.dramReqSize / node.config.precision :=
  Nat.div_pos (Nat.le_of_dvd h.dramReqSize_pos h.dvd) h.precision_pos

/-- Two runs of elements have the same accesses exactly if they start in one and end in one. -/
theorem chunks_iff (h : node.config.Divides) {base : AddrType} {s t len : Nat} (hlen : 0 < len)
    (hs : s + len ≤ 2 ^ 32) (ht : t + len ≤ 2 ^ 32) :
    (∀ a, (∃ j < len, a = base + node.chunk (s + j)) ↔ ∃ j < len, a = base + node.chunk (t + j)) ↔
      s / (node.config.dramReqSize / node.config.precision) =
          t / (node.config.dramReqSize / node.config.precision) ∧
        (s + (len - 1)) / (node.config.dramReqSize / node.config.precision) =
          (t + (len - 1)) / (node.config.dramReqSize / node.config.precision) := by
  rw [← Chunks.runs_iff h.elems_pos hlen]
  constructor
  · intro hall c
    constructor
    · rintro ⟨j, hj, rfl⟩
      obtain ⟨k, hk, heq⟩ := (hall _).mp ⟨j, hj, rfl⟩
      exact ⟨k, hk, ((h.chunk_inj (by omega) (by omega)).mp heq).symm⟩
    · rintro ⟨j, hj, rfl⟩
      obtain ⟨k, hk, heq⟩ := (hall _).mpr ⟨j, hj, rfl⟩
      exact ⟨k, hk, ((h.chunk_inj (by omega) (by omega)).mp heq).symm⟩
  · intro hall a
    constructor
    · rintro ⟨j, hj, rfl⟩
      obtain ⟨k, hk, heq⟩ := (hall _).mp ⟨j, hj, rfl⟩
      exact ⟨k, hk, (h.chunk_inj (by omega) (by omega)).mpr heq.symm⟩
    · rintro ⟨j, hj, rfl⟩
      obtain ⟨k, hk, heq⟩ := (hall _).mpr ⟨j, hj, rfl⟩
      exact ⟨k, hk, (h.chunk_inj (by omega) (by omega)).mpr heq.symm⟩

end SimulationConfig.Divides

/-- Rows of `d` numbers are one run. -/
theorem exists_row_iff {rows d : Nat} {P : Nat → Prop} :
    (∃ r < rows, ∃ i < d, P (r * d + i)) ↔ ∃ j < rows * d, P j := by
  constructor
  · rintro ⟨r, hr, i, hi, hP⟩
    refine ⟨r * d + i, ?_, hP⟩
    have hmul : (r + 1) * d ≤ rows * d := Nat.mul_le_mul_right d hr
    rw [Nat.succ_mul] at hmul
    omega
  · rintro ⟨j, hj, hP⟩
    have hd : 0 < d := by
      refine Nat.pos_of_ne_zero fun hzero => ?_
      rw [hzero, Nat.mul_zero] at hj
      omega
    refine ⟨j / d, Nat.div_lt_of_lt_mul (Nat.mul_comm rows d ▸ hj), j % d, Nat.mod_lt j hd, ?_⟩
    rwa [Nat.div_add_mod']

theorem Node.makeAddress_two {node : Node} {r c rows cols : Nat} {a : AddrType} :
    node.makeAddress [r, c] [rows, cols] = some a ↔
      r < rows ∧ c < cols ∧ a = node.elementAddress (r * cols + c) := by
  unfold makeAddress
  split
  · rename_i hout
    simp at hout
    refine iff_of_false (by simp) ?_
    rintro ⟨hr, hc, -⟩
    omega
  · rename_i hin
    simp at hin
    simp only [Option.some.injEq, hin, true_and]
    exact eq_comm

theorem Node.makeAddress_three {node : Node} {i j k d0 d1 d2 : Nat} {a : AddrType} :
    node.makeAddress [i, j, k] [d0, d1, d2] = some a ↔
      i < d0 ∧ j < d1 ∧ k < d2 ∧ a = node.elementAddress (i * (d1 * d2) + j * d2 + k) := by
  unfold makeAddress
  split
  · rename_i hout
    simp at hout
    refine iff_of_false (by simp) ?_
    rintro ⟨hi, hj, hk, -⟩
    omega
  · rename_i hin
    simp at hin
    simp only [Option.some.injEq, hin, true_and]
    exact eq_comm

/-- Some instruction has the address among its sources. -/
def Touched (is : List Instruction) (opcode : Opcode) (operandId : Nat) (a : AddrType) : Prop :=
  ∃ i ∈ is, i.opcode = opcode ∧ i.operandId = operandId ∧ a ∈ i.srcAddrs

end OnnxSim
