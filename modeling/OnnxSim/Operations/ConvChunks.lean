import Mathlib.Algebra.Ring.Nat
import OnnxSim.Lib.Grid
import OnnxSim.Operations.Access
import OnnxSim.Operations.ConvWS

/-!
# The chunks of pixels

With the channels innermost an activation is a row-major grid of pixels. Where the channels of a pixel fill
whole accesses, two pixels have no chunk in common (`ConvWS.PixelsApart.place_eq`).
-/

namespace OnnxSim

namespace ConvWS

/-- The pixels of an activation have accesses of their own. -/
structure PixelsApart (op : ConvWS) (shape : List Nat) : Prop where
  layout : op.config.layout = .NHWC
  divides : op.config.Divides
  dvd : op.config.dramReqSize / op.config.precision ∣ shape.getD op.cdim 0

/-- The place of a pixel in its activation. -/
def place (op : ConvWS) (shape : List Nat) (n h w : Nat) : Nat :=
  Grid.place (shape.getD op.hdim 0) (shape.getD op.wdim 0) n h w

variable {op : ConvWS} {shape : List Nat} {n h w c n' h' w' c' : Nat}

/-- The address of an element that is in 32 bits. -/
theorem makeActivationAddress_eq (hlayout : op.config.layout = .NHWC)
    (hlt : (op.place shape n h w * shape.getD op.cdim 0 + c) * op.config.precision < 2 ^ 32) :
    op.makeActivationAddress n h w c shape =
      op.chunk (op.place shape n h w * shape.getD op.cdim 0 + c) := by
  have hindex : n * shape.getD op.hdim 0 * shape.getD op.wdim 0 * shape.getD op.cdim 0 +
      h * shape.getD op.wdim 0 * shape.getD op.cdim 0 + w * shape.getD op.cdim 0 + c =
        op.place shape n h w * shape.getD op.cdim 0 + c := by
    unfold place Grid.place
    simp only [Nat.add_mul]
  unfold makeActivationAddress
  rw [hlayout]
  simp only
  rw [hindex, word, Nat.mod_eq_of_lt hlt]
  rfl

/-- Elements that have one chunk are of one pixel. -/
theorem PixelsApart.place_eq (hapart : op.PixelsApart shape) {base : AddrType}
    (hc : c < shape.getD op.cdim 0) (hc' : c' < shape.getD op.cdim 0)
    (hlt : (op.place shape n h w * shape.getD op.cdim 0 + c) * op.config.precision < 2 ^ 32)
    (hlt' : (op.place shape n' h' w' * shape.getD op.cdim 0 + c') * op.config.precision < 2 ^ 32)
    (heq : base + op.makeActivationAddress n h w c shape =
      base + op.makeActivationAddress n' h' w' c' shape) :
    op.place shape n h w = op.place shape n' h' w' := by
  have helems := hapart.divides.elems_pos
  have hsmall : ∀ {i}, i * op.config.precision < 2 ^ 32 → i ≤ 2 ^ 32 := fun hi =>
    Nat.le_of_lt (Nat.lt_of_le_of_lt (Nat.le_mul_of_pos_right _ hapart.divides.precision_pos) hi)
  rw [makeActivationAddress_eq hapart.layout hlt, makeActivationAddress_eq hapart.layout hlt',
    hapart.divides.chunk_inj (hsmall hlt) (hsmall hlt')] at heq
  obtain ⟨k, hk⟩ := hapart.dvd
  rw [hk] at heq hc hc'
  generalize op.config.dramReqSize / op.config.precision = e at heq hc hc' helems
  have hdiv : ∀ p c, c < e * k → (p * (e * k) + c) / e / k = p := by
    intro p c hc
    rw [Nat.div_div_eq_div_mul, Nat.mul_comm p, Nat.mul_add_div (Nat.lt_of_le_of_lt (Nat.zero_le _) hc),
      Nat.div_eq_of_lt hc, Nat.add_zero]
  rw [← hdiv (op.place shape n h w) c hc, heq, hdiv _ c' hc']

end ConvWS

end OnnxSim
