import OnnxSim.Model
import Mathlib.Logic.Function.Iterate

/-!
# Autoregressive replay

`Model::check_regressive` and `Model::prepare_regressive` (`Model.cc`): a finished model is scheduled
again until its length reaches `output_seq_len`. The exit test is an equality on 32-bit counters, and
a step that does not start from an empty past adds 1 to it, whatever the length of the last pass. So
the replay ends when it should, with consistent lengths, exactly for the configurations of
`regressive_iff`.
-/

namespace OnnxSim

/-- The axes of `_axis_map` that the constructor sets. -/
inductive Axis
  | outputSeqLen
  | seqLen
  | pastSeqLen
  | totalSeqLen
  deriving Repr, DecidableEq

/-- What `_model_config` says of the lengths. -/
structure LengthConfig where
  outputSeqLen : Option Nat := none
  seqLen : Option Nat := none
  pastSeqLen : Option Nat := none
  totalSeqLen : Option Nat := none

structure RegressiveModel where
  model : Model
  modelConfig : LengthConfig
  axisMap : Axis → Option Nat
  nrSkip : Nat := 0
  startTime : Nat := 0

namespace RegressiveModel

/-- The constructor; `uint32_t` values. -/
def create (model : Model) (modelConfig : LengthConfig) : RegressiveModel where
  model
  modelConfig
  axisMap
    | .outputSeqLen => modelConfig.outputSeqLen.map (· % 2 ^ 32)
    | .seqLen => modelConfig.seqLen.map (· % 2 ^ 32)
    | .pastSeqLen => modelConfig.pastSeqLen.map (· % 2 ^ 32)
    | .totalSeqLen => modelConfig.totalSeqLen.map (· % 2 ^ 32)

/-- `_axis_map[axis]`. -/
def axis (m : RegressiveModel) (a : Axis) : Nat := (m.axisMap a).getD 0

def setAxis (m : RegressiveModel) (a : Axis) (n : Nat) : RegressiveModel :=
  { m with axisMap := fun a' => if a' = a then some n else m.axisMap a' }

/-- `Model::check_regressive`. -/
def checkRegressive (m : RegressiveModel) : Bool :=
  match m.axisMap .totalSeqLen with
  | none => false
  | some total => some ((total + 1) % 2 ^ 32) != m.modelConfig.outputSeqLen

/-- `Model::prepare_regressive`. -/
def prepareRegressive (m : RegressiveModel) : RegressiveModel :=
  let m :=
    if m.axis .pastSeqLen = 0 then m.setAxis .pastSeqLen (m.axis .seqLen)
    else m.setAxis .pastSeqLen ((m.axis .pastSeqLen + 1) % 2 ^ 32)
  let m := m.setAxis .seqLen 1
  let m := m.setAxis .totalSeqLen ((m.axis .totalSeqLen + 1) % 2 ^ 32)
  { m with
    model := { m.model with operationMap := [], tensorMap := fun _ => {}, executableLayer := [] }
    nrSkip := 0
    startTime := 0 }

/-- `while (m.check_regressive()) m.prepare_regressive();` ends after `k` steps. -/
def EndsAfter (m : RegressiveModel) (k : Nat) : Prop :=
  (∀ i < k, (prepareRegressive^[i] m).checkRegressive = true) ∧
    (prepareRegressive^[k] m).checkRegressive = false

/-- `total_seq_len = past_seq_len + seq_len`. -/
def Consistent (m : RegressiveModel) : Prop :=
  m.axis .totalSeqLen = (m.axis .pastSeqLen + m.axis .seqLen) % 2 ^ 32

/-! ## One step -/

@[simp] theorem axis_setAxis_self (m : RegressiveModel) (a : Axis) (n : Nat) :
    (m.setAxis a n).axis a = n := by
  simp [axis, setAxis]

@[simp] theorem axis_setAxis_of_ne {m : RegressiveModel} {a a' : Axis} (h : a' ≠ a) (n : Nat) :
    (m.setAxis a n).axis a' = m.axis a' := by
  simp [axis, setAxis, h]

theorem prepare_pastSeqLen (m : RegressiveModel) :
    m.prepareRegressive.axis .pastSeqLen =
      if m.axis .pastSeqLen = 0 then m.axis .seqLen else (m.axis .pastSeqLen + 1) % 2 ^ 32 := by
  unfold prepareRegressive
  split <;> simp [axis, setAxis]

theorem prepare_seqLen (m : RegressiveModel) : m.prepareRegressive.axis .seqLen = 1 := by
  simp [prepareRegressive, axis, setAxis]

theorem prepare_totalSeqLen (m : RegressiveModel) :
    m.prepareRegressive.axis .totalSeqLen = (m.axis .totalSeqLen + 1) % 2 ^ 32 := by
  unfold prepareRegressive
  split <;> simp [axis, setAxis]

theorem prepare_modelConfig (m : RegressiveModel) :
    m.prepareRegressive.modelConfig = m.modelConfig := by
  unfold prepareRegressive
  split <;> rfl

theorem prepare_isSome (m : RegressiveModel) :
    (m.prepareRegressive.axisMap .totalSeqLen).isSome := by
  simp [prepareRegressive, setAxis]

/-! ## All steps -/

section Replay

variable {model : Model} {past seq output : Nat}

/-- A model configured with these lengths. -/
def configured (model : Model) (past seq output : Nat) : RegressiveModel :=
  create model
    { outputSeqLen := some output, seqLen := some seq, pastSeqLen := some past
      totalSeqLen := some (past + seq) }

theorem iterate_totalSeqLen (i : Nat) :
    (prepareRegressive^[i] (configured model past seq output)).axis .totalSeqLen =
      (past + seq + i) % 2 ^ 32 := by
  induction i with
  | zero => rfl
  | succ i ih =>
    rw [Function.iterate_succ_apply', prepare_totalSeqLen, ih, Nat.mod_add_mod, Nat.add_assoc]

theorem iterate_checkRegressive (i : Nat) :
    (prepareRegressive^[i] (configured model past seq output)).checkRegressive = false ↔
      (past + seq + i + 1) % 2 ^ 32 = output := by
  have hconfig : (prepareRegressive^[i] (configured model past seq output)).modelConfig.outputSeqLen =
      some output := by
    induction i with
    | zero => rfl
    | succ i ih => rw [Function.iterate_succ_apply', prepare_modelConfig, ih]
  have hsome : ((prepareRegressive^[i] (configured model past seq output)).axisMap
      .totalSeqLen).isSome := by
    cases i with
    | zero => rfl
    | succ i =>
      rw [Function.iterate_succ_apply']
      exact prepare_isSome _
  obtain ⟨total, heq⟩ := Option.isSome_iff_exists.mp hsome
  have htotal : ((prepareRegressive^[i] (configured model past seq output)).axisMap
      .totalSeqLen).getD 0 = (past + seq + i) % 2 ^ 32 := iterate_totalSeqLen i
  rw [heq, Option.getD_some] at htotal
  unfold checkRegressive
  rw [heq, hconfig, htotal]
  simp [Nat.mod_add_mod]

/-- From an empty past, or with passes of one token, the lengths stay consistent. -/
theorem iterate_lengths (h : past = 0 ∨ seq = 1) {i : Nat} (hi : past + seq + i < 2 ^ 32) :
    let m := prepareRegressive^[i] (configured model past seq output)
    m.axis .pastSeqLen + m.axis .seqLen = past + seq + i ∧
      (m.axis .pastSeqLen = 0 ∨ m.axis .seqLen = 1) := by
  induction i with
  | zero =>
    have hpast : (configured model past seq output).axis .pastSeqLen = past :=
      Nat.mod_eq_of_lt (by omega)
    have hseq : (configured model past seq output).axis .seqLen = seq :=
      Nat.mod_eq_of_lt (by omega)
    simp only [Function.iterate_zero, id_eq, hpast, hseq]
    exact ⟨rfl, h⟩
  | succ i ih =>
    obtain ⟨hsum, hlast⟩ := ih (by omega)
    rw [Function.iterate_succ_apply']
    simp only [prepare_pastSeqLen, prepare_seqLen, or_true, and_true]
    split
    · omega
    · rw [Nat.mod_eq_of_lt (by omega)]
      omega

/-- The replay of a configuration with `total_seq_len = past_seq_len + seq_len` makes exactly the
steps that are due, with consistent lengths, if and only if none is due, or the length is still
below `output_seq_len` and the first pass starts from an empty past or has one token. -/
theorem regressive_iff (model : Model) (hseq : 1 ≤ seq) (htotal : past + seq < 2 ^ 32) :
    ((configured model past seq output).EndsAfter (output - 1 - (past + seq)) ∧
      ∀ i ≤ output - 1 - (past + seq),
        (prepareRegressive^[i] (configured model past seq output)).Consistent) ↔
    (past + seq + 1) % 2 ^ 32 = output ∨
      past + seq + 1 < output ∧ output < 2 ^ 32 ∧ (past = 0 ∨ seq = 1) := by
  constructor
  · rintro ⟨⟨hcontinue, hend⟩, hconsistent⟩
    rw [iterate_checkRegressive] at hend
    by_cases hdue : output - 1 - (past + seq) = 0
    · rw [hdue] at hend
      exact .inl hend
    · refine .inr ⟨by omega, hend ▸ Nat.mod_lt _ (by decide), ?_⟩
      by_contra hlong
      -- the first step adds 1 to a past that misses `seq` tokens
      have hpast : past ≠ 0 := fun h => hlong (.inl h)
      have hfirst : (configured model past seq output).prepareRegressive.Consistent :=
        hconsistent 1 (by omega)
      have hpast' : (configured model past seq output).axis .pastSeqLen = past :=
        Nat.mod_eq_of_lt (by omega)
      have htotal' : (configured model past seq output).axis .totalSeqLen = past + seq :=
        Nat.mod_eq_of_lt htotal
      unfold Consistent at hfirst
      rw [prepare_totalSeqLen, prepare_pastSeqLen, prepare_seqLen, hpast', htotal', if_neg hpast]
        at hfirst
      omega
  · intro h
    rcases h with hnone | ⟨hbelow, hword, hlengths⟩
    · have hzero : output - 1 - (past + seq) = 0 := by omega
      rw [hzero]
      refine ⟨⟨fun i hi => absurd hi (Nat.not_lt_zero i), (iterate_checkRegressive 0).mpr hnone⟩,
        fun i hi => ?_⟩
      obtain rfl := Nat.le_zero.mp hi
      change (past + seq) % 2 ^ 32 = (past % 2 ^ 32 + seq % 2 ^ 32) % 2 ^ 32
      omega
    · refine ⟨⟨fun i hi => ?_, ?_⟩, fun i hi => ?_⟩
      · rw [← Bool.not_eq_false, iterate_checkRegressive]
        omega
      · rw [iterate_checkRegressive]
        omega
      · have hsum : (prepareRegressive^[i] (configured model past seq output)).axis .pastSeqLen +
            (prepareRegressive^[i] (configured model past seq output)).axis .seqLen =
              past + seq + i := (iterate_lengths hlengths (by omega)).1
        unfold Consistent
        rw [iterate_totalSeqLen, hsum]

/-- A model without operations. -/
def bare : Model := { operationMap := [], executableLayer := [] }

/-- A prompt of 8 tokens, and 12 tokens to be reached: three steps. -/
theorem regressive_iff_prompt :
    ((configured bare 0 8 12).EndsAfter 3 ∧
      ∀ i ≤ 3, (prepareRegressive^[i] (configured bare 0 8 12)).Consistent) ↔
    (0 + 8 + 1) % 2 ^ 32 = 12 ∨ 0 + 8 + 1 < 12 ∧ 12 < 2 ^ 32 ∧ (0 = 0 ∨ 8 = 1) :=
  regressive_iff bare (by decide) (by decide)

/-- A model whose prompt is as long as its output is replayed. -/
theorem replay_past_the_end : ¬ ∀ (model : Model) (past seq output : Nat), 1 ≤ seq →
    past + seq < 2 ^ 32 →
    (configured model past seq output).EndsAfter (output - 1 - (past + seq)) ∧
      ∀ i ≤ output - 1 - (past + seq),
        (prepareRegressive^[i] (configured model past seq output)).Consistent := by
  intro hall
  have hend := (hall bare 0 8 8 (by decide) (by decide)).1.2
  rw [iterate_checkRegressive] at hend
  exact absurd hend (by decide)

end Replay

end RegressiveModel

end OnnxSim
