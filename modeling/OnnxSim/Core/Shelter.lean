import OnnxSim.Core.Execution
import OnnxSim.Core.Memory

/-!
# Who waits for a fill

A tile is retired when its last instruction has finished, whatever it has loaded. What keeps a buffer
that still waits for fills from being flushed is the order of the instructions of a tile: what is loaded
into the scratchpad is an operand of a later matrix instruction, which is not issued before it is there,
and a result is stored by a later instruction or the tile ends with a computation (`InOrder`). So each
such fill has a running tile that holds its buffer (`Core.Sheltered`). Only the fills of a load into the
accumulator have none: a computation adds to an entry that still waits.
-/

namespace OnnxSim

/-! ## The instructions of a tile -/

/-- The issue of the instruction waits until the operand at `addr` is in the scratchpad. -/
def Instruction.Reads (k : Instruction) (addr : AddrType) : Prop :=
  Core.isGemm k.opcode ∧ addr ∈ k.srcAddrs

def EndsIn (p : Opcode → Prop) (l : List Instruction) : Prop := ∃ k, l.getLast? = some k ∧ p k.opcode

def IsLoad (o : Opcode) : Prop := o = .MOVIN

def IsGemm (o : Opcode) : Prop := Core.isGemm o

/-- A load of whole chunks, a store, or a matrix instruction with its operands in the scratchpad. -/
def Instruction.Plain (k : Instruction) : Prop :=
  IsLoad k.opcode ∧ k.size = k.srcAddrs.length ∨ Core.isStore k.opcode ∨
    IsGemm k.opcode ∧ k.srcFromAccum = false ∧ k.zeroInit = false

/-- Before the instructions `rest`: what is loaded into the scratchpad is used there, or nothing but a
load ends the list, which then never finishes; a result is stored there, or the list ends with a
computation. -/
structure Instruction.Precedes (k : Instruction) (rest : List Instruction) : Prop where
  plain : k.Plain
  load : IsLoad k.opcode → k.toAccum = false → k.srcAddrs ≠ [] →
    (∃ k' ∈ rest, k'.Reads k.destAddr) ∨ EndsIn IsLoad (k :: rest)
  compute : IsGemm k.opcode →
    (∃ k' ∈ rest, Core.isStore k'.opcode ∧ k'.destAddr = k.destAddr) ∨ EndsIn IsGemm (k :: rest)

/-- Each instruction of the list precedes the others in this sense. -/
def InOrder : List Instruction → Prop
  | [] => True
  | k :: rest => k.Precedes rest ∧ InOrder rest

section Lists

variable {k k' : Instruction} {rest : List Instruction} {p : Opcode → Prop}

theorem endsIn_cons : EndsIn p (k :: rest) ↔ rest = [] ∧ p k.opcode ∨ EndsIn p rest := by
  unfold EndsIn
  cases rest with
  | nil => simp
  | cons k' rest => simp [List.getLast?_cons_cons]

theorem EndsIn.ne_nil {l : List Instruction} (h : EndsIn p l) : l ≠ [] := by
  rintro rfl
  obtain ⟨k, hk, -⟩ := h
  cases hk

theorem isGemm_not_load {o : Opcode} (h : IsGemm o) : ¬ IsLoad o := by
  rintro rfl
  cases h

theorem isStore_not_gemm {o : Opcode} (h : Core.isStore o) : ¬ IsGemm o := by
  revert h
  unfold IsGemm
  cases o <;> simp [Core.isStore, Core.isGemm]

/-- What is neither a load nor a store computes. -/
theorem Instruction.Plain.gemm (h : k.Plain) (hload : ¬ IsLoad k.opcode)
    (hstore : Core.isStore k.opcode = false) :
    IsGemm k.opcode ∧ k.srcFromAccum = false ∧ k.zeroInit = false := by
  rcases h with h | h | h
  · exact absurd h.1 hload
  · rw [hstore] at h
    cases h
  · exact h

/-- `k'` differs from `k` in what the issue loop writes only. -/
structure Instruction.Same (k k' : Instruction) : Prop where
  opcode : k'.opcode = k.opcode
  destAddr : k'.destAddr = k.destAddr
  size : k'.size = k.size
  srcAddrs : k'.srcAddrs = k.srcAddrs
  srcFromAccum : k'.srcFromAccum = k.srcFromAccum
  zeroInit : k'.zeroInit = k.zeroInit

theorem Instruction.Same.toAccum (h : k.Same k') : k'.toAccum = k.toAccum := by
  unfold Instruction.toAccum
  rw [h.destAddr]

theorem Instruction.Same.reads (h : k.Same k') {addr : AddrType} : k'.Reads addr ↔ k.Reads addr := by
  unfold Instruction.Reads
  rw [h.opcode, h.srcAddrs]

theorem Instruction.Same.plain (h : k.Same k') (hk : k.Plain) : k'.Plain := by
  unfold Instruction.Plain at hk ⊢
  rwa [h.opcode, h.size, h.srcAddrs, h.srcFromAccum, h.zeroInit]

theorem Instruction.Same.endsIn (h : k.Same k') : EndsIn p (k' :: rest) ↔ EndsIn p (k :: rest) := by
  rw [endsIn_cons, endsIn_cons, h.opcode]

theorem Instruction.Same.precedes (h : k.Same k') (hk : k.Precedes rest) : k'.Precedes rest where
  plain := h.plain hk.plain
  load := by
    rw [h.opcode, h.toAccum, h.srcAddrs, h.destAddr, h.endsIn]
    exact hk.load
  compute := by
    rw [h.opcode, h.destAddr, h.endsIn]
    exact hk.compute

theorem Core.prepare_same (t : Tile) (k : Instruction) : k.Same (Core.prepare t k) := by
  unfold Core.prepare
  split <;> exact ⟨rfl, rfl, rfl, rfl, rfl, rfl⟩

theorem Core.prepare_from (t : Tile) (k : Instruction) :
    (Core.prepare t k).owner = t.ptr ∧ (Core.prepare t k).From t := by
  unfold Core.prepare
  exact ⟨rfl, rfl, rfl⟩

end Lists

/-! ## What is outstanding -/

/-- Two instructions of one tile with one destination have one slot. -/
theorem Instruction.From.slot_eq {x y : Instruction} {t : Tile} (hx : x.From t) (hy : y.From t)
    (h : x.destAddr = y.destAddr) : x.slot = y.slot := by
  unfold Instruction.slot Instruction.bufferId Instruction.toAccum
  rw [h, hx.1, hx.2, hy.1, hy.2]

/-- The instruction without its cycles. -/
def Instruction.untimed (x : Instruction) : Instruction := { x with startCycle := 0, finishCycle := 0 }

namespace Core

/-- The matrix instructions that have been issued and have not finished, the oldest first. -/
def computing (c : Core) : List Instruction :=
  (c.computePipeline ++ c.exInstQueue).map Instruction.untimed

/-- The tiles whose last instruction has been issued and will set their flag. -/
def finishing (c : Core) : List (Option TilePtr) := lastOf (c.computing ++ c.stInstQueue.reduceOption)

/-- The reads that the core has requested and that have no answer yet. -/
def unanswered (c : Core) (memory : List MemoryAccess) : List MemoryAccess :=
  (c.requestQueue ++ memory).filter (!·.write)

/-- The fills that are outstanding: an answer to a read, or the end of a matrix instruction. -/
def outstanding (c : Core) (memory : List MemoryAccess) : List Slot :=
  (c.unanswered memory).map (·.slot) ++ c.computePipeline.map (·.slot)

/-- The last instruction of the tile is a load: its flag is never set. -/
def Endless (finishing : List (Option TilePtr)) (t : Tile) : Prop :=
  EndsIn IsLoad t.instructions ∨
    t.instructions = [] ∧ t.instFinished = false ∧ some t.ptr ∉ finishing

/-- The tile holds the buffer of an operand, and has an instruction left that reads it, or never
finishes. -/
def Awaits (finishing : List (Option TilePtr)) (t : Tile) (slot : Slot) : Prop :=
  t.spadId = slot.bufferId ∧ ((∃ k ∈ t.instructions, k.Reads slot.addr) ∨ Endless finishing t)

/-- A running tile awaits the operand. -/
def Awaited (tiles : List Tile) (finishing : List (Option TilePtr)) (slot : Slot) : Prop :=
  ∃ t ∈ tiles, Awaits finishing t slot

/-- The tile of `x` has a store of its result left, or a computation that is the tile's last is still
to be issued or to finish. -/
def AnchoredBy (t : Tile) (x : Instruction) (post : List Instruction) : Prop :=
  x.owner = t.ptr ∧ x.From t ∧ ((∃ k ∈ t.instructions, isStore k.opcode ∧ k.destAddr = x.destAddr) ∨
    EndsIn IsGemm t.instructions ∨ some t.ptr ∈ lastOf (x :: post))

/-- Each of these matrix instructions is anchored by a running tile. -/
def Anchored (tiles : List Tile) : List Instruction → Prop
  | [] => True
  | x :: post => (∃ t ∈ tiles, AnchoredBy t x post) ∧ Anchored tiles post

/-- Every fill that is outstanding has an entry that waits for it. A running tile holds the buffer of
the entry, unless the fill answers a load into the accumulator. -/
structure Sheltered (memory : List MemoryAccess) (c : Core) : Prop where
  order : ∀ t ∈ c.tiles, InOrder t.instructions
  vector : c.vectorPipeline = []
  computes : ∀ x ∈ c.computing, IsGemm x.opcode ∧ x.Plain
  loads : ∀ l ∈ c.ldInstQueue, l.size = l.srcAddrs.length ∧
    (l.toAccum = false → l.srcAddrs ≠ [] → Awaited c.tiles c.finishing l.slot)
  anchored : Anchored c.tiles c.computing
  counted : Scoreboard.Counted SramEntry.valid SramEntry.remainReqCount c.entry
    (c.outstanding memory)
  reads : ∀ m ∈ c.unanswered memory, m.slot.accum = false → Awaited c.tiles c.finishing m.slot

/-! ## Shelters stay -/

variable {tiles tiles' : List Tile} {fin fin' : List (Option TilePtr)} {slot : Slot} {t t' : Tile}
  {x y : Instruction} {post l : List Instruction}

/-- With fewer tiles about to finish, what is awaited stays so. -/
theorem Awaits.mono (h : Awaits fin t slot) (hsub : ∀ o ∈ fin', o ∈ fin) : Awaits fin' t slot := by
  refine ⟨h.1, h.2.imp_right fun hend => hend.imp_right fun ⟨hnil, hflag, hnot⟩ => ?_⟩
  exact ⟨hnil, hflag, fun hmem => hnot (hsub _ hmem)⟩

theorem Awaited.mono (h : Awaited tiles fin slot) (hsub : ∀ o ∈ fin', o ∈ fin) :
    Awaited tiles fin' slot := by
  obtain ⟨t, ht, hawaits⟩ := h
  exact ⟨t, ht, hawaits.mono hsub⟩

/-- An instruction finishes. -/
theorem Awaited.marked (h : Awaited tiles fin slot) (hfin : fin.Perm (lastOf [x] ++ fin')) :
    Awaited (tiles.map (mark x)) fin' slot := by
  obtain ⟨t, ht, hbuffer, hwait⟩ := h
  refine ⟨mark x t, List.mem_map_of_mem ht, (mark_spadId x t).trans hbuffer, ?_⟩
  unfold Endless
  rw [mark_instructions, mark_ptr]
  rcases hwait with hread | hlast | ⟨hnil, hflag, hnot⟩
  · exact .inl hread
  · exact .inr (.inl hlast)
  · rw [mark_of_not_mem fun hmem => hnot (hfin.symm.subset (List.mem_append_left _ hmem))]
    exact .inr (.inr ⟨hnil, hflag, fun hmem =>
      hnot (hfin.symm.subset (List.mem_append_right _ hmem))⟩)

/-- A tile that awaits something is not ready. -/
theorem Awaits.not_ready (h : Awaits fin t slot) : ¬ t.ready := by
  intro hready
  obtain ⟨hempty, hflag⟩ := Bool.and_eq_true_iff.mp hready
  have hnil := List.isEmpty_iff.mp hempty
  rcases h.2 with ⟨k, hk, -⟩ | hlast | ⟨-, hclear, -⟩
  · rw [hnil] at hk
    cases hk
  · exact hlast.ne_nil hnil
  · rw [hflag] at hclear
    cases hclear

/-- An anchor is a running tile from which the instruction comes. -/
theorem Anchored.exists_tile (h : Anchored tiles l) (hx : x ∈ l) :
    ∃ t ∈ tiles, x.owner = t.ptr ∧ x.From t := by
  induction l with
  | nil => cases hx
  | cons y post ih =>
    obtain ⟨⟨t, ht, howner, hfrom, -⟩, hpost⟩ := h
    rcases List.mem_cons.mp hx with rfl | hx
    · exact ⟨t, ht, howner, hfrom⟩
    · exact ih hpost hx

theorem AnchoredBy.mono {post' : List Instruction} (h : AnchoredBy t x post)
    (hsub : ∀ y ∈ post, y ∈ post') : AnchoredBy t x post' := by
  obtain ⟨howner, hfrom, hanchor⟩ := h
  refine ⟨howner, hfrom, hanchor.imp_right (Or.imp_right fun hlast => ?_)⟩
  obtain ⟨y, hy, hlast⟩ := mem_lastOf.mp hlast
  refine mem_lastOf.mpr ⟨y, ?_, hlast⟩
  rcases List.mem_cons.mp hy with rfl | hy
  · exact List.mem_cons_self
  · exact List.mem_cons_of_mem _ (hsub y hy)

/-- The instructions come from tiles that go on. -/
theorem Anchored.imp (h : Anchored tiles l)
    (himp : ∀ t ∈ tiles, ∀ x post, (∀ y ∈ x :: post, y ∈ l) → AnchoredBy t x post →
      ∃ t' ∈ tiles', AnchoredBy t' x post) : Anchored tiles' l := by
  induction l with
  | nil => trivial
  | cons x post ih =>
    obtain ⟨⟨t, ht, hx⟩, hpost⟩ := h
    refine ⟨himp t ht x post (fun y hy => hy) hx, ih hpost fun t ht y post' hsub => ?_⟩
    exact himp t ht y post' fun z hz => List.mem_cons_of_mem _ (hsub z hz)

/-- Another instruction is issued. -/
theorem Anchored.snoc (h : Anchored tiles l)
    (himp : ∀ t ∈ tiles, ∀ x post, (∀ y ∈ x :: post, y ∈ l) → AnchoredBy t x post →
      ∃ t' ∈ tiles', AnchoredBy t' x (post ++ [y]))
    (hy : ∃ t ∈ tiles', AnchoredBy t y []) : Anchored tiles' (l ++ [y]) := by
  induction l with
  | nil => exact ⟨hy, trivial⟩
  | cons x post ih =>
    obtain ⟨⟨t, ht, hx⟩, hpost⟩ := h
    refine ⟨himp t ht x post (fun y hy => hy) hx, ih hpost fun t ht z post' hsub => ?_⟩
    exact himp t ht z post' fun w hw => List.mem_cons_of_mem _ (hsub w hw)

theorem Anchored.marked (h : Anchored tiles l) : Anchored (tiles.map (mark x)) l := by
  refine h.imp fun t ht y post _ hy => ⟨mark x t, List.mem_map_of_mem ht, ?_⟩
  unfold AnchoredBy Instruction.From at hy ⊢
  rwa [mark_ptr, mark_spadId, mark_accumSpadId, mark_instructions]

/-- The anchor of an instruction that has not finished is not ready. -/
theorem AnchoredBy.not_ready {pending : List (Option TilePtr)} (h : AnchoredBy t x post)
    (hhoused : Housed tiles pending) (ht : t ∈ tiles) (hpending : ∀ o ∈ lastOf (x :: post), o ∈ pending) :
    ¬ t.ready := by
  intro hready
  have hnil := List.isEmpty_iff.mp (Bool.and_eq_true_iff.mp hready).1
  rcases h.2.2 with ⟨k, hk, -⟩ | hlast | hlast
  · rw [hnil] at hk
    cases hk
  · exact hlast.ne_nil hnil
  · exact hhoused.not_mem_of_ready ht hready (hpending _ hlast)

end Core

end OnnxSim
