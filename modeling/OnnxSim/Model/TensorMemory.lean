import OnnxSim.Common
import OnnxSim.Language.CacheMemory
import OnnxSim.Lib.Spans

/-!
# The memory of the tensors

The constructors of `Tensor` that allocate ask `allocate_address` for the bytes of the tensor, a
`uint32_t`, while the shape may have more. The counter `base_addr` has 64 bits; in step with it runs one
without a bound (`TensorMemory.offsets`), and the two give the same addresses modulo 2^64.
-/

namespace OnnxSim

/-- The shape of a tensor, as a constructor gets it. -/
structure TensorShape where
  dims : List Nat
  precision : Nat
  deriving Repr, DecidableEq

namespace TensorShape

/-- The bytes of the tensor. -/
def bytes (s : TensorShape) : Nat := s.dims.prod * s.precision

/-- The bytes that `allocate_tensor` computes. -/
def allocated (s : TensorShape) : Nat := allocatedSize s.precision s.dims

/-- By how much `allocate_address` moves the next address up. -/
def space (s : TensorShape) : Nat := 256 * (s.allocated / 256 + 1)

theorem allocated_eq (s : TensorShape) : s.allocated = s.bytes % 2 ^ 32 := by
  have hprod : ∀ (dims : List Nat) (acc : Nat),
      dims.foldl (fun size dim => size * dim % 2 ^ 32) acc % 2 ^ 32 = acc * dims.prod % 2 ^ 32 := by
    intro dims
    induction dims with
    | nil => simp
    | cons d dims ih =>
      intro acc
      rw [List.foldl_cons, ih, List.prod_cons, ← Nat.mul_assoc, Nat.mod_mul_mod]
  unfold allocated allocatedSize bytes
  rw [Nat.mul_mod, hprod, Nat.one_mul, ← Nat.mul_mod]

theorem allocated_of_lt {s : TensorShape} (h : s.bytes < 2 ^ 32) : s.allocated = s.bytes := by
  rw [allocated_eq, Nat.mod_eq_of_lt h]

theorem allocated_lt_space (s : TensorShape) : s.allocated < s.space := by
  unfold space
  omega

end TensorShape

/-- A tensor after its constructor. -/
structure AllocatedTensor where
  shape : TensorShape
  /-- `_address`. -/
  address : AddrType
  /-- `_size`. -/
  size : Nat
  deriving Repr, DecidableEq

namespace AllocatedTensor

/-- The addresses of the bytes of the tensor. -/
def region (t : AllocatedTensor) : Set AddrType := Spans.Span t.address t.shape.bytes

/-- The address is aligned and `get_size` is the number of bytes. -/
def Sized (t : AllocatedTensor) : Prop := t.address.toNat % 256 = 0 ∧ t.size = t.shape.bytes

end AllocatedTensor

namespace TensorMemory

open TensorShape

/-- `allocate_address` with its 64-bit counter. -/
def allocate (baseAddr : AddrType) (size : Nat) : AddrType × AddrType :=
  let (address, next) := allocateAddress baseAddr.toNat size
  (BitVec.ofNat 64 address, BitVec.ofNat 64 next)

/-- The tensors that a sequence of constructors makes, from a value of `base_addr` on. -/
def construct (baseAddr : AddrType) : List TensorShape → List AllocatedTensor
  | [] => []
  | s :: rest =>
    let (address, next) := allocate baseAddr s.allocated
    { shape := s, address, size := s.allocated } :: construct next rest

/-- The tensors that a sequence of constructors makes in a new process. -/
def tensors (shapes : List TensorShape) : List AllocatedTensor := construct 0 shapes

/-- The shapes with the addresses that a counter without a bound gives them. -/
def offsets (offset : Nat) : List TensorShape → List (Nat × TensorShape)
  | [] => []
  | s :: rest => (offset, s) :: offsets (offset + s.space) rest

/-- The tensors are aligned, have their size, and lie apart. -/
structure Laid (l : List AllocatedTensor) : Prop where
  sized : ∀ t ∈ l, t.Sized
  apart : l.Pairwise fun t u => Disjoint t.region u.region

/-- A later tensor is not laid over an earlier one by a counter that has come round. -/
def Clear (p q : Nat × TensorShape) : Prop := 0 < p.2.bytes → 0 < q.2.bytes →
  p.2.bytes ≤ (q.1 - p.1) % 2 ^ 64 ∧ (q.1 - p.1) % 2 ^ 64 + q.2.bytes ≤ 2 ^ 64

theorem allocate_ofNat {offset : Nat} (h : offset % 256 = 0) (s : TensorShape) :
    allocate (BitVec.ofNat 64 offset) s.allocated =
      (BitVec.ofNat 64 offset, BitVec.ofNat 64 (offset + s.space)) := by
  have hbase : (BitVec.ofNat 64 offset).toNat % 256 = 0 := by
    rw [BitVec.toNat_ofNat]
    omega
  have hlt : s.allocated < 2 ^ 32 := Nat.mod_lt _ (by decide)
  obtain ⟨haddress, -, -⟩ := allocateAddress_spec hbase s.allocated
  have hnext : (allocateAddress (BitVec.ofNat 64 offset).toNat s.allocated).2 =
      (BitVec.ofNat 64 offset).toNat + s.space := by
    unfold allocateAddress TensorShape.space
    simp only [hbase, ne_eq, not_true_eq_false, if_false, Nat.add_zero, Nat.mod_eq_of_lt hlt]
    omega
  unfold allocate
  dsimp only
  rw [haddress, hnext, BitVec.ofNat_add, BitVec.ofNat_toNat, BitVec.setWidth_eq, ← BitVec.ofNat_add]

/-- The constructors give the addresses of the counter without a bound, modulo 2^64. -/
theorem construct_eq (shapes : List TensorShape) (offset : Nat) (h : offset % 256 = 0) :
    construct (BitVec.ofNat 64 offset) shapes = (offsets offset shapes).map fun p =>
      { shape := p.2, address := BitVec.ofNat 64 p.1, size := p.2.allocated } := by
  induction shapes generalizing offset with
  | nil => rfl
  | cons s rest ih =>
    have hnext : (offset + s.space) % 256 = 0 := by
      unfold TensorShape.space
      omega
    rw [construct, allocate_ofNat h, offsets, List.map_cons, ← ih _ hnext]

theorem offsets_snd (shapes : List TensorShape) (offset : Nat) :
    (offsets offset shapes).map Prod.snd = shapes := by
  induction shapes generalizing offset with
  | nil => rfl
  | cons s rest ih => rw [offsets, List.map_cons, ih]

/-- Every offset is aligned and lies between the first one and the end. -/
theorem mem_offsets {shapes : List TensorShape} {offset : Nat} {p : Nat × TensorShape}
    (h : offset % 256 = 0) (hp : p ∈ offsets offset shapes) : p.1 % 256 = 0 ∧ offset ≤ p.1 ∧
      p.1 + p.2.space ≤ offset + (shapes.map TensorShape.space).sum := by
  induction shapes generalizing offset with
  | nil => cases hp
  | cons s rest ih =>
    rw [List.map_cons, List.sum_cons]
    rcases List.mem_cons.mp hp with rfl | hp
    · exact ⟨h, le_rfl, by simp only; omega⟩
    · have hnext : (offset + s.space) % 256 = 0 := by
        unfold TensorShape.space
        omega
      obtain ⟨haligned, hfrom, hto⟩ := ih hnext hp
      exact ⟨haligned, by omega, by omega⟩

/-- A later tensor starts above the space of an earlier one. -/
theorem offsets_pairwise (shapes : List TensorShape) (offset : Nat) (h : offset % 256 = 0) :
    (offsets offset shapes).Pairwise fun p q => p.1 + p.2.space ≤ q.1 := by
  induction shapes generalizing offset with
  | nil => exact .nil
  | cons s rest ih =>
    have hnext : (offset + s.space) % 256 = 0 := by
      unfold TensorShape.space
      omega
    exact .cons (fun q hq => (mem_offsets hnext hq).2.1) (ih _ hnext)

/-- Whether two tensors are apart depends on the distance of their offsets. -/
theorem region_disjoint_iff {p q : Nat × TensorShape} (h : p.1 ≤ q.1) :
    Disjoint (Spans.Span (BitVec.ofNat 64 p.1) p.2.bytes)
      (Spans.Span (BitVec.ofNat 64 q.1) q.2.bytes) ↔ Clear p q := by
  unfold Clear
  rcases Nat.eq_zero_or_pos p.2.bytes with hp | hp
  · simp [hp]
  · rcases Nat.eq_zero_or_pos q.2.bytes with hq | hq
    · simp [hq]
    · rw [Spans.disjoint_ofNat_iff h hp hq]
      simp only [hp, hq, forall_const]

theorem tensors_eq (shapes : List TensorShape) : tensors shapes = (offsets 0 shapes).map fun p =>
    { shape := p.2, address := BitVec.ofNat 64 p.1, size := p.2.allocated } :=
  construct_eq shapes 0 rfl

theorem sized_iff (shapes : List TensorShape) :
    (∀ t ∈ tensors shapes, t.Sized) ↔ ∀ s ∈ shapes, s.bytes < 2 ^ 32 := by
  have hone : ∀ p ∈ offsets 0 shapes, (AllocatedTensor.Sized
      { shape := p.2, address := BitVec.ofNat 64 p.1, size := p.2.allocated } ↔
        p.2.bytes < 2 ^ 32) := by
    intro p hp
    have haligned : p.1 % 2 ^ 64 % 256 = 0 := by
      have := (mem_offsets rfl hp).1
      omega
    unfold AllocatedTensor.Sized
    rw [BitVec.toNat_ofNat, and_iff_right haligned]
    refine ⟨fun hsize => ?_, allocated_of_lt⟩
    rw [← hsize, allocated_eq]
    exact Nat.mod_lt _ (by decide)
  rw [tensors_eq, List.forall_mem_map]
  have hshapes : (∀ s ∈ shapes, s.bytes < 2 ^ 32) ↔ ∀ p ∈ offsets 0 shapes, p.2.bytes < 2 ^ 32 := by
    conv_lhs => rw [← offsets_snd shapes 0]
    exact List.forall_mem_map
  rw [hshapes]
  exact forall₂_congr hone

theorem apart_iff (shapes : List TensorShape) :
    (tensors shapes).Pairwise (fun t u => Disjoint t.region u.region) ↔
      (offsets 0 shapes).Pairwise Clear := by
  have horder := offsets_pairwise shapes 0 rfl
  rw [tensors_eq, List.pairwise_map]
  constructor
  · intro hapart
    exact (hapart.and horder).imp fun ⟨hdisj, hle⟩ => (region_disjoint_iff (by omega)).mp hdisj
  · intro hclear
    exact (hclear.and horder).imp fun ⟨hone, hle⟩ => (region_disjoint_iff (by omega)).mpr hone

/-- While the spaces of all tensors come to at most 2^64, the counter has not come round. -/
theorem clear_of_sum_le {shapes : List TensorShape} (hlt : ∀ s ∈ shapes, s.bytes < 2 ^ 32)
    (hsum : (shapes.map TensorShape.space).sum ≤ 2 ^ 64) : (offsets 0 shapes).Pairwise Clear := by
  have hsize : ∀ p ∈ offsets 0 shapes, p.2.bytes < p.2.space := by
    intro p hp
    have hmem : p.2 ∈ (offsets 0 shapes).map Prod.snd := List.mem_map_of_mem hp
    rw [offsets_snd] at hmem
    rw [← allocated_of_lt (hlt p.2 hmem)]
    exact allocated_lt_space p.2
  refine (offsets_pairwise shapes 0 rfl).imp_of_mem fun {p q} hp hq hle _ _ => ?_
  have hend := (mem_offsets rfl hq).2.2
  have hp := hsize p hp
  have hq := hsize q hq
  rw [Nat.mod_eq_of_lt (by omega)]
  omega

/-- The tensors of a process are laid out properly exactly when none has 2^32 bytes or more and the
64-bit counter has not come back onto one of them. -/
theorem laid_iff (shapes : List TensorShape) :
    (Laid (tensors shapes) ↔
      (∀ s ∈ shapes, s.bytes < 2 ^ 32) ∧ (offsets 0 shapes).Pairwise Clear) ∧
    ((shapes.map TensorShape.space).sum ≤ 2 ^ 64 →
      (Laid (tensors shapes) ↔ ∀ s ∈ shapes, s.bytes < 2 ^ 32)) := by
  have hlaid : Laid (tensors shapes) ↔
      (∀ s ∈ shapes, s.bytes < 2 ^ 32) ∧ (offsets 0 shapes).Pairwise Clear := by
    rw [← sized_iff, ← apart_iff]
    exact ⟨fun h => ⟨h.sized, h.apart⟩, fun h => ⟨h.1, h.2⟩⟩
  refine ⟨hlaid, fun hsum => ?_⟩
  rw [hlaid]
  exact and_iff_left_of_imp fun hlt => clear_of_sum_le hlt hsum

/-- Two matrices of 65536 times 32768 elements of two bytes: 4 GiB each. -/
def hugePair : List TensorShape := List.replicate 2 { dims := [65536, 32768], precision := 2 }

/-- The second one is laid over the first, from 256 on. -/
theorem hugePair_overlaps : ¬ ∀ shapes, Laid (tensors shapes) := by
  intro hall
  have hclear := (apart_iff hugePair).mp (hall hugePair).apart
  have hpair := List.pairwise_iff_getElem.mp hclear 0 1 (by decide) (by decide) (by decide)
  exact absurd (hpair (by decide) (by decide)).1 (by decide)

/-- Two small tensors. -/
theorem laid_iff_small :
    Laid (tensors [{ dims := [3, 5], precision := 2 }, { dims := [7], precision := 4 }]) :=
  ((laid_iff _).2 (by decide)).mpr (by decide)

end TensorMemory

end OnnxSim
