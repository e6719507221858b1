import OnnxSim.Core

/-!
# Programs of tiles

The core runs the instructions of a tile in their order. A load must have a new destination, a store and
a compute instruction wait until their addresses are valid, and an address becomes valid only if an
earlier instruction has it for its destination. So what can run is a property of the list
(`Runnable`).
-/

namespace OnnxSim

/-- An instruction that is not a store allocates its destination. -/
def Allocates (pre : List Instruction) (a : AddrType) : Prop :=
  ∃ j ∈ pre, Core.isStore j.opcode = false ∧ j.destAddr = a

/-- The instruction can run after those in `pre`: the destination of a load is new, that of a store and
the sources of a compute instruction are not, and the sources are in the scratchpad where
`can_issue_compute` looks for them. -/
structure Instruction.RunsAfter (i : Instruction) (pre : List Instruction) : Prop where
  fresh : i.opcode = .MOVIN → ¬ Allocates pre i.destAddr
  stored : Core.isStore i.opcode → Allocates pre i.destAddr
  operands : i.opcode ≠ .MOVIN → Core.isStore i.opcode = false → ∀ a ∈ i.srcAddrs,
    Allocates pre a ∧ (ACCUM_SPAD_BASE ≤ a → i.srcFromAccum)

/-- Every instruction can run after those before it. -/
def Runnable (is : List Instruction) : Prop :=
  ∀ pre i post, is = pre ++ i :: post → i.RunsAfter pre

namespace Core

/-- The buffer of the scratchpad that holds an address for the tile. -/
def bufferOf (t : Tile) (accum : Bool) : Nat := if accum then t.accumSpadId else t.spadId

/-- What the scratchpads hold for the tile, its instructions in `pre` have allocated. A tile that
accumulates also has what is left in the accumulator. -/
structure EntriesFrom (c : Core) (t : Tile) (pre : List Instruction) : Prop where
  spad : ∀ a, c.spad.checkAllocated a t.spadId → ¬ ACCUM_SPAD_BASE ≤ a ∧ Allocates pre a
  accSpad : t.accum = false → ∀ a, c.accSpad.checkAllocated a t.accumSpadId → Allocates pre a

/-- What the instructions in `pre` have allocated is valid. -/
def AllDone (c : Core) (t : Tile) (pre : List Instruction) : Prop :=
  ∀ a, Allocates pre a → (c.buffer (ACCUM_SPAD_BASE ≤ a)).checkHit a (bufferOf t (ACCUM_SPAD_BASE ≤ a))

variable {config : SimulationConfig} {c : Core} {t : Tile} {i : Instruction} {pre : List Instruction}

@[simp] theorem prepare_spadId : (prepare t i).spadId = t.spadId := rfl

@[simp] theorem prepare_accumSpadId : (prepare t i).accumSpadId = t.accumSpadId := rfl

@[simp] theorem prepare_toAccum : (prepare t i).toAccum = i.toAccum := by
  unfold Instruction.toAccum
  rw [prepare_destAddr]

@[simp] theorem prepare_bufferId : (prepare t i).bufferId = bufferOf t i.toAccum := by
  unfold Instruction.bufferId bufferOf
  rw [prepare_toAccum, prepare_spadId, prepare_accumSpadId]

theorem checkAllocated_of_checkHit {s : Sram} {a : AddrType} {b : Nat} (h : s.checkHit a b) :
    s.checkAllocated a b := by
  unfold Sram.checkHit at h
  unfold Sram.checkAllocated
  split at h
  · cases h
  · simp [*]

/-- Where a load can run, the core refuses it for want of space only. -/
theorem tryIssue_load (h : i.RunsAfter pre) (hopcode : i.opcode = .MOVIN)
    (hentries : c.EntriesFrom t pre) (hkept : t.accum → i.toAccum = false) :
    tryIssue config c (prepare t i) = none ↔
      (c.buffer i.toAccum).checkRemain i.size (bufferOf t i.toAccum) = false := by
  have hfresh : (c.buffer i.toAccum).checkAllocated i.destAddr (bufferOf t i.toAccum) = false := by
    refine Bool.eq_false_iff.mpr fun hallocated => h.fresh hopcode ?_
    cases haccum : i.toAccum with
    | false =>
      rw [haccum] at hallocated
      exact (hentries.spad _ hallocated).2
    | true =>
      rw [haccum] at hallocated
      refine hentries.accSpad (Bool.eq_false_iff.mpr fun hacc => ?_) _ hallocated
      exact Bool.false_ne_true ((hkept hacc).symm.trans haccum)
  unfold tryIssue
  simp only [prepare_opcode, prepare_destAddr, prepare_size, prepare_toAccum, prepare_bufferId,
    hopcode, hfresh, if_true, Bool.not_false, Bool.true_and]
  split
  · rename_i hremain
    simp [hremain]
  · rename_i hfull
    simpa using hfull

/-- Where a store can run, it does not wait once the instructions before it are done. -/
theorem tryIssue_store (h : i.RunsAfter pre) (hopcode : isStore i.opcode) (hdone : c.AllDone t pre) :
    ∃ c', tryIssue config c (prepare t i) = some (some c') := by
  have hhit : (c.buffer i.toAccum).checkHit i.destAddr (bufferOf t i.toAccum) = true :=
    hdone _ (h.stored hopcode)
  have hload : i.opcode ≠ .MOVIN := by
    rintro heq
    rw [heq] at hopcode
    cases hopcode
  unfold tryIssue
  simp only [prepare_opcode, prepare_destAddr, prepare_toAccum, prepare_bufferId, hload, hopcode,
    if_true, if_false]
  rw [if_pos hhit]
  exact ⟨_, rfl⟩

/-- Where a compute instruction can run, its sources are ready once the instructions before it are
done. -/
theorem operandsReady_prepare (h : i.RunsAfter pre) (hload : i.opcode ≠ .MOVIN)
    (hstore : isStore i.opcode = false) (hdone : c.AllDone t pre) :
    c.operandsReady (prepare t i) := by
  unfold operandsReady
  refine List.all_eq_true.mpr fun a ha => ?_
  rw [prepare_srcAddrs] at ha
  obtain ⟨hallocates, haccum⟩ := h.operands hload hstore a ha
  have hhit := hdone a hallocates
  rw [prepare_srcFromAccum, prepare_accumSpadId, prepare_spadId]
  by_cases hin : ACCUM_SPAD_BASE ≤ a
  · simpa [hin, haccum hin, bufferOf, buffer] using hhit
  · simpa [hin, bufferOf, buffer] using hhit

/-- A compute instruction with a source that no instruction before it has allocated in the memory where
the core looks for it is not issued. -/
theorem tryIssue_compute_waits (hload : i.opcode ≠ .MOVIN) (hstore : isStore i.opcode = false)
    {a : AddrType} (ha : a ∈ i.srcAddrs) (haccum : i.srcFromAccum = false)
    (hentries : c.EntriesFrom t pre) (hbad : ACCUM_SPAD_BASE ≤ a ∨ ¬ Allocates pre a) :
    tryIssue config c (prepare t i) = some none := by
  have hmiss : c.spad.checkHit a t.spadId = false := by
    refine Bool.eq_false_iff.mpr fun hhit => ?_
    obtain ⟨hlow, hallocates⟩ := hentries.spad a (checkAllocated_of_checkHit hhit)
    rcases hbad with hhigh | hnever
    · exact hlow hhigh
    · exact hnever hallocates
  have hnot : c.operandsReady (prepare t i) = false := by
    refine Bool.eq_false_iff.mpr fun hready => ?_
    have hhit := List.all_eq_true.mp hready a (by rwa [prepare_srcAddrs])
    rw [prepare_srcFromAccum, haccum, prepare_spadId] at hhit
    exact Bool.false_ne_true (hmiss.symm.trans (by simpa using hhit))
  unfold tryIssue canIssueCompute
  simp [hload, hstore, hnot]

/-- A load of an address that is allocated stops the simulation. -/
theorem tryIssue_load_again (hopcode : i.opcode = .MOVIN) (hagain : Allocates pre i.destAddr)
    (hdone : c.AllDone t pre) : tryIssue config c (prepare t i) = none := by
  have hallocated : (c.buffer i.toAccum).checkAllocated i.destAddr (bufferOf t i.toAccum) = true :=
    checkAllocated_of_checkHit (hdone _ hagain)
  unfold tryIssue
  simp [hopcode, hallocated]

end Core

/-- The core neither refuses a load of the list for its destination, nor makes a store or a compute
instruction wait for an entry once the instructions before it are done. -/
structure NeverStalls (is : List Instruction) (accum : Bool) : Prop where
  load : ∀ pre i post, is = pre ++ i :: post → i.opcode = .MOVIN →
    ∀ (config : SimulationConfig) (c : Core) (t : Tile), t.accum = accum → c.EntriesFrom t pre →
      (Core.tryIssue config c (Core.prepare t i) = none ↔
        (c.buffer i.toAccum).checkRemain i.size (Core.bufferOf t i.toAccum) = false)
  store : ∀ pre i post, is = pre ++ i :: post → Core.isStore i.opcode →
    ∀ (config : SimulationConfig) (c : Core) (t : Tile), c.AllDone t pre →
      ∃ c', Core.tryIssue config c (Core.prepare t i) = some (some c')
  compute : ∀ pre i post, is = pre ++ i :: post → i.opcode ≠ .MOVIN → Core.isStore i.opcode = false →
    ∀ (c : Core) (t : Tile), c.AllDone t pre → c.operandsReady (Core.prepare t i)

/-- A list whose instructions can run never stalls. In a tile that accumulates, the loads must stay out
of the accumulator. -/
theorem Runnable.neverStalls {is : List Instruction} {accum : Bool} (h : Runnable is)
    (hkept : accum → ∀ i ∈ is, i.opcode = .MOVIN → i.toAccum = false) : NeverStalls is accum where
  load pre i post his hopcode config c t haccum hentries := by
    refine Core.tryIssue_load (h pre i post his) hopcode hentries fun hacc => ?_
    exact hkept (haccum ▸ hacc) i (by simp [his]) hopcode
  store pre i post his hopcode config c t hdone :=
    Core.tryIssue_store (h pre i post his) hopcode hdone
  compute pre i post his hload hstore c t hdone :=
    Core.operandsReady_prepare (h pre i post his) hload hstore hdone

/-! ## Sections of a list -/

section Sections

variable {α : Type} {xs ys pre post : List α} {x : α}

/-- Before an element that is not in the first section, all of that section comes. -/
theorem mem_pre_of_not_mem (h : xs ++ ys = pre ++ x :: post) (hx : x ∉ xs) {y : α} (hy : y ∈ xs) :
    y ∈ pre := by
  rcases List.append_eq_append_iff.mp h with ⟨as, rfl, -⟩ | ⟨bs, rfl, hbs⟩
  · exact List.mem_append_left _ hy
  · cases bs with
    | nil => simpa using hy
    | cons b bs =>
      obtain ⟨rfl, -⟩ := List.cons.inj hbs
      exact absurd (List.mem_append_right _ List.mem_cons_self) hx

/-- An element that is not in the last section is in the first. -/
theorem eq_append_of_not_mem (h : xs ++ ys = pre ++ x :: post) (hx : x ∉ ys) :
    ∃ post', xs = pre ++ x :: post' := by
  rcases List.append_eq_append_iff.mp h with ⟨as, -, rfl⟩ | ⟨bs, rfl, hbs⟩
  · exact absurd (List.mem_append_right _ List.mem_cons_self) hx
  · cases bs with
    | nil =>
      rw [List.nil_append] at hbs
      exact absurd (hbs ▸ List.mem_cons_self) hx
    | cons b bs =>
      obtain ⟨rfl, -⟩ := List.cons.inj hbs
      exact ⟨bs, rfl⟩

end Sections

end OnnxSim
