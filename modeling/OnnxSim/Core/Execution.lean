import Mathlib.Data.List.ReduceOption
import OnnxSim.Core.Hands

/-!
# Checks made at issue hold at execution

Between two calls of `cycle` at most one instruction is in the three queues, its tile is running, and
what the issue loop checked for it is true (`Core.Sound`). Whatever happens before the queues are looked
at keeps that (`Core.Moves`), so the next call executes the instruction and leaves the queues empty
(`Core.Run.checksHold`). In particular a store never misses in `handle_st_inst_queue`, where the null
pointer would stay in the queue.
-/

namespace OnnxSim

namespace Core

variable {config : SimulationConfig} {c d e : Core} {x : Instruction}

/-- The instructions that wait in the queues. -/
def inHand (c : Core) : List Instruction :=
  c.ldInstQueue ++ c.exInstQueue ++ c.stInstQueue.reduceOption

/-- The tiles whose last instruction has been issued and has not finished. -/
def pendingLast (c : Core) : List (Option TilePtr) :=
  lastOf (c.computePipeline ++ c.vectorPipeline ++ c.inHand)

/-- Between two calls of `cycle`. -/
structure Sound (config : SimulationConfig) (c : Core) : Prop where
  housed : Housed c.tiles c.pendingLast
  one : c.ldInstQueue.length + c.exInstQueue.length + c.stInstQueue.length ≤ 1
  held : none ∉ c.stInstQueue
  home : ∀ x ∈ c.inHand, AtHome c.tiles x
  load : ∀ x ∈ c.ldInstQueue, x.opcode = .MOVIN ∧ c.entry x.slot = none ∧
    (c.buffer x.slot.accum).checkRemain x.size x.slot.bufferId
  compute : ∀ x ∈ c.exInstQueue, canIssueCompute config c x
  store : ∀ x, some x ∈ c.stInstQueue → isStore x.opcode ∧ c.Valid x.slot

/-! ## What happens before the queues are looked at -/

/-- Nothing is issued and nothing is executed. -/
structure Moves (c d : Core) : Prop where
  ldInstQueue : d.ldInstQueue = c.ldInstQueue
  exInstQueue : d.exInstQueue = c.exInstQueue
  stInstQueue : d.stInstQueue = c.stInstQueue
  eases : ∀ x, AtHome c.tiles x → Eases x c d
  home : Housed c.tiles c.pendingLast → ∀ x ∈ c.inHand, AtHome c.tiles x → AtHome d.tiles x
  housed : Housed c.tiles c.pendingLast → Housed d.tiles d.pendingLast

theorem Moves.inHand_eq (h : Moves c d) : d.inHand = c.inHand := by
  unfold inHand
  rw [h.ldInstQueue, h.exInstQueue, h.stInstQueue]

theorem mem_inHand_of_store (h : some x ∈ c.stInstQueue) : x ∈ c.inHand :=
  List.mem_append_right _ (List.reduceOption_mem_iff.mpr h)

theorem Sound.moves (h : Sound config c) (hm : Moves c d) : Sound config d := by
  have heases : ∀ x ∈ c.inHand, Eases x c d := fun x hx => hm.eases x (h.home x hx)
  refine ⟨hm.housed h.housed, ?_, ?_, ?_, ?_, ?_, ?_⟩
  · rw [hm.ldInstQueue, hm.exInstQueue, hm.stInstQueue]
    exact h.one
  · exact hm.stInstQueue ▸ h.held
  · rw [hm.inHand_eq]
    exact fun x hx => hm.home h.housed x hx (h.home x hx)
  · rw [hm.ldInstQueue]
    intro x hx
    have hx' := heases x (List.mem_append_left _ (List.mem_append_left _ hx))
    obtain ⟨hop, hfree, hremain⟩ := h.load x hx
    exact ⟨hop, hx'.free _ (uses_slot x) hfree, hx'.remain _ _ _ (uses_slot x) hremain⟩
  · rw [hm.exInstQueue]
    intro x hx
    exact (heases x (List.mem_append_left _ (List.mem_append_right _ hx))).canIssueCompute
      (h.compute x hx)
  · rw [hm.stInstQueue]
    intro x hx
    obtain ⟨hop, hvalid⟩ := h.store x hx
    exact ⟨hop, (heases x (mem_inHand_of_store hx)).valid _ (uses_slot x) hvalid⟩

theorem Moves.refl (c : Core) : Moves c c :=
  ⟨rfl, rfl, rfl, fun x _ => Eases.refl x c, fun _ _ _ h => h, fun h => h⟩

/-- Only what no instruction waits for changes. -/
theorem Moves.of_eq (hid : d.id = c.id) (hspad : d.spad = c.spad) (hacc : d.accSpad = c.accSpad)
    (htiles : d.tiles = c.tiles) (hcompute : d.computePipeline = c.computePipeline)
    (hvector : d.vectorPipeline = c.vectorPipeline) (hld : d.ldInstQueue = c.ldInstQueue)
    (hex : d.exInstQueue = c.exInstQueue) (hst : d.stInstQueue = c.stInstQueue) : Moves c d := by
  have hpending : d.pendingLast = c.pendingLast := by
    unfold pendingLast inHand
    rw [hcompute, hvector, hld, hex, hst]
  refine ⟨hld, hex, hst, fun x _ => Eases.of_eq hid hspad hacc (hcompute ▸ Nat.le_refl _)
    fun h => hvector.trans h, fun _ _ _ h => htiles ▸ h, fun h => ?_⟩
  rw [htiles, hpending]
  exact h

theorem Moves.fill {slot : Slot} {s : Sram}
    (hs : (c.buffer slot.accum).fill slot.addr slot.bufferId = some s) :
    Moves c (c.setBuffer slot.accum s) := by
  have heases : ∀ x, Eases x c (c.setBuffer slot.accum s) := fun x => Eases.fill hs
  rw [setBuffer_eq] at heases ⊢
  exact ⟨rfl, rfl, rfl, fun x _ => heases x, fun _ _ _ h => h, fun h => h⟩

theorem AtHome.marked {tiles : List Tile} {y : Instruction} (h : AtHome tiles x) :
    AtHome (tiles.map (mark y)) x := by
  obtain ⟨t, ht, howner, hfrom, hleft⟩ := h
  refine ⟨mark y t, List.mem_map_of_mem ht, ?_⟩
  unfold Instruction.From at hfrom ⊢
  rw [mark_ptr, mark_spadId, mark_accumSpadId, mark_instructions]
  exact ⟨howner, hfrom, hleft⟩

/-- An instruction leaves a pipeline: its destination is filled and its tile's flag is set. -/
theorem Moves.finish {s : Sram} (hs : (c.buffer x.slot.accum).fill x.slot.addr x.slot.bufferId = some s)
    (hspad : d.spad = (c.setBuffer x.slot.accum s).spad)
    (hacc : d.accSpad = (c.setBuffer x.slot.accum s).accSpad)
    (hid : d.id = c.id) (htiles : d.tiles = c.tiles.map (mark x))
    (hcompute : d.computePipeline.length ≤ c.computePipeline.length)
    (hvector : c.vectorPipeline = [] → d.vectorPipeline = [])
    (hld : d.ldInstQueue = c.ldInstQueue) (hex : d.exInstQueue = c.exInstQueue)
    (hst : d.stInstQueue = c.stInstQueue)
    (hpipes : (c.computePipeline ++ c.vectorPipeline).Perm
      (x :: (d.computePipeline ++ d.vectorPipeline))) : Moves c d := by
  have hfill : ∀ y, Eases y c (c.setBuffer x.slot.accum s) := fun y => Eases.fill hs
  have hbuffers : ∀ y, Eases y (c.setBuffer x.slot.accum s) d := by
    intro y
    refine Eases.of_eq ?_ hspad hacc ?_ ?_ <;> rw [setBuffer_eq]
    · exact hid
    · exact hcompute
    · exact hvector
  have hpending : c.pendingLast.Perm (lastOf [x] ++ d.pendingLast) := by
    unfold pendingLast inHand
    rw [hld, hex, hst, ← lastOf_append]
    exact lastOf_perm (hpipes.append_right _)
  refine ⟨hld, hex, hst, fun y _ => (hfill y).trans (hbuffers y), fun _ y _ h => ?_, fun h => ?_⟩
  · rw [htiles]
    exact h.marked
  · rw [htiles]
    exact h.finished hpending

theorem finishComputePipeline_moves (h : c.finishComputePipeline = some d) : Moves c d := by
  rcases finishComputePipeline_effect h with rfl | ⟨x, rest, s, fin, hpipe, hs, rfl⟩
  · exact Moves.refl _
  · rw [setBuffer_eq]
    refine Moves.finish hs (by rw [setBuffer_eq]) (by rw [setBuffer_eq]) rfl rfl ?_ (fun h => h)
      rfl rfl rfl ?_
    · rw [hpipe]
      exact Nat.le_succ _
    · rw [hpipe]
      exact List.Perm.refl _

theorem finishVectorPipeline_moves (h : c.finishVectorPipeline = some d) : Moves c d := by
  rcases finishVectorPipeline_effect h with rfl | ⟨x, rest, s, fin, hpipe, hs, rfl⟩
  · exact Moves.refl _
  · rw [setBuffer_eq]
    refine Moves.finish hs (by rw [setBuffer_eq]) (by rw [setBuffer_eq]) rfl rfl (Nat.le_refl _) ?_
      rfl rfl rfl ?_
    · intro hnil
      rw [hpipe] at hnil
      cases hnil
    · rw [hpipe]
      exact List.perm_middle

theorem retire_moves (c : Core) : Moves c c.retire := by
  rcases retire_cases c with h | ⟨i, t, -, ht, hready, h⟩
  · rw [h]
    exact Moves.refl c
  · rw [h]
    refine ⟨rfl, rfl, rfl, fun x _ => Eases.of_eq rfl rfl rfl (Nat.le_refl _) fun h => h,
      fun hhoused x hx hhome => ?_, fun hhoused => hhoused.retired ht hready⟩
    refine hhome.retired hhoused ht hready fun o ho => ?_
    obtain ⟨y, hy, hlast⟩ := mem_lastOf.mp ho
    obtain rfl := List.mem_singleton.mp hy
    exact mem_lastOf.mpr ⟨y, List.mem_append_right _ hx, hlast⟩

/-! ## The queues -/

/-- Nothing waits in the queues. -/
structure Idle (c : Core) : Prop where
  ldInstQueue : c.ldInstQueue = []
  exInstQueue : c.exInstQueue = []
  stInstQueue : c.stInstQueue = []

theorem Idle.inHand (h : Idle c) : c.inHand = [] := by
  unfold Core.inHand
  rw [h.ldInstQueue, h.exInstQueue, h.stInstQueue]
  rfl

theorem Idle.sound (h : Idle c) (hhoused : Housed c.tiles c.pendingLast) : Sound config c := by
  refine ⟨hhoused, ?_, ?_, ?_, ?_, ?_, ?_⟩
  · rw [h.ldInstQueue, h.exInstQueue, h.stInstQueue]
    exact Nat.zero_le _
  · rw [h.stInstQueue]
    exact List.not_mem_nil
  · rw [h.inHand]
    exact fun x hx => absurd hx List.not_mem_nil
  · rw [h.ldInstQueue]
    exact fun x hx => absurd hx List.not_mem_nil
  · rw [h.exInstQueue]
    exact fun x hx => absurd hx List.not_mem_nil
  · rw [h.stInstQueue]
    exact fun x hx => absurd hx List.not_mem_nil

theorem Idle.pendingLast (h : Idle c) :
    c.pendingLast = lastOf (c.computePipeline ++ c.vectorPipeline) := by
  unfold Core.pendingLast
  rw [h.inHand, List.append_nil]

theorem pendingLast_of_inHand (h : c.inHand = [x]) :
    c.pendingLast.Perm (lastOf [x] ++ lastOf (c.computePipeline ++ c.vectorPipeline)) := by
  unfold pendingLast
  rw [h, ← lastOf_append]
  exact lastOf_perm List.perm_append_comm

/-- An instruction that waits is the only one that does. -/
theorem Sound.inHand_eq (h : Sound config c) (hx : x ∈ c.inHand) : c.inHand = [x] := by
  have hlength : c.inHand.length ≤ 1 := by
    have hreduced := List.reduceOption_length_le c.stInstQueue
    have hone := h.one
    unfold inHand
    rw [List.length_append, List.length_append]
    omega
  obtain ⟨y, hy⟩ := List.length_eq_one_iff.mp
    (Nat.le_antisymm hlength (List.length_pos_of_mem hx))
  rw [hy, List.mem_singleton] at hx
  rw [hy, hx]

/-- A load that waits can allocate its destination. -/
theorem Sound.prefetch (h : Sound config c) (hx : x ∈ c.ldInstQueue) :
    ∃ s, (c.buffer x.toAccum).prefetch x.destAddr x.bufferId x.size x.size = some s := by
  obtain ⟨-, hfree, hremain⟩ := h.load x hx
  have hfree' : (c.buffer x.toAccum).checkAllocated x.destAddr x.bufferId = false := by
    unfold Sram.checkAllocated
    rw [show (c.buffer x.toAccum).cacheTable x.bufferId x.destAddr = none from hfree]
    rfl
  have hremain' : (c.buffer x.toAccum).checkRemain x.size x.bufferId = true := hremain
  unfold Sram.prefetch
  rw [hfree', hremain', if_neg Bool.false_ne_true, if_pos rfl]
  exact ⟨_, rfl⟩

/-- The load that waits is executed. -/
theorem Sound.handleLdInstQueue (h : Sound config c) (hd : handleLdInstQueue config c = some d) :
    Sound config d ∧ d.ldInstQueue = [] ∧ d.exInstQueue = c.exInstQueue ∧
      d.stInstQueue = c.stInstQueue := by
  rcases handleLdInstQueue_effect hd with ⟨rfl, hq⟩ | ⟨x, rest, s, hq, -, -, hd⟩
  · exact ⟨h, hq, rfl, rfl⟩
  · have hone := h.one
    rw [hq, List.length_cons] at hone
    have hhand : c.inHand = [x] := h.inHand_eq (by unfold inHand; rw [hq]; exact List.mem_cons_self)
    rw [setBuffer_eq] at hd
    obtain rfl : rest = [] := List.length_eq_zero_iff.mp (by omega)
    have hex : c.exInstQueue = [] := List.length_eq_zero_iff.mp (by omega)
    have hst : c.stInstQueue = [] := List.length_eq_zero_iff.mp (by omega)
    have hidle : Idle d := hd ▸ ⟨rfl, hex, hst⟩
    refine ⟨hidle.sound ?_, hidle.ldInstQueue, hidle.exInstQueue.trans hex.symm,
      hidle.stInstQueue.trans hst.symm⟩
    have hhoused := h.housed.dropped (pendingLast_of_inHand hhand)
    rw [hidle.pendingLast, hd]
    exact hhoused

theorem lastOf_congr {y : Instruction} (hlast : y.lastInst = x.lastInst) (htile : y.myTile = x.myTile) :
    lastOf [y] = lastOf [x] := by
  cases h : x.lastInst with
  | true =>
    rw [lastOf_singleton_of_last h, lastOf_singleton_of_last (hlast.trans h), htile]
  | false =>
    rw [lastOf_singleton_of_not h, lastOf_singleton_of_not (hlast.trans h)]

/-- The compute instruction that waits enters one of the pipelines. -/
theorem Sound.handleExInstQueue (h : Sound config c) (hd : handleExInstQueue config c = some d) :
    Sound config d ∧ d.exInstQueue = [] ∧ d.ldInstQueue = c.ldInstQueue ∧
      d.stInstQueue = c.stInstQueue := by
  have hentered : ∀ {front y : Instruction} {rest : List Instruction} {e : Core},
      c.exInstQueue = front :: rest → c.allocDest front = some e → lastOf [y] = lastOf [front] →
      d.tiles = e.tiles → d.ldInstQueue = e.ldInstQueue → d.exInstQueue = rest →
      d.stInstQueue = e.stInstQueue → (d.computePipeline ++ d.vectorPipeline).Perm
        ([y] ++ (e.computePipeline ++ e.vectorPipeline)) →
      Sound config d ∧ d.exInstQueue = [] ∧ d.ldInstQueue = c.ldInstQueue ∧
        d.stInstQueue = c.stInstQueue := by
    intro front y rest e hq halloc hlast htiles hld hex hst hpipes
    have hone := h.one
    rw [hq, List.length_cons] at hone
    have hhand : c.inHand = [front] := h.inHand_eq (by unfold inHand; rw [hq]; simp)
    obtain ⟨s, -, halloc⟩ := Option.bind_eq_some_iff.mp halloc
    obtain rfl := Option.some.inj halloc
    rw [setBuffer_eq] at htiles hld hst hpipes
    have hcld : c.ldInstQueue = [] := List.length_eq_zero_iff.mp (by omega)
    have hcst : c.stInstQueue = [] := List.length_eq_zero_iff.mp (by omega)
    have hrest : rest = [] := List.length_eq_zero_iff.mp (by omega)
    have hidle : Idle d := ⟨hld.trans hcld, hex.trans hrest, hst.trans hcst⟩
    refine ⟨hidle.sound ?_, hidle.exInstQueue, hld, hst⟩
    rw [hidle.pendingLast, htiles]
    have hperm := lastOf_perm hpipes
    rw [lastOf_append [y], hlast] at hperm
    exact h.housed.perm ((pendingLast_of_inHand hhand).trans hperm.symm)
  cases handleExInstQueue_executes hd with
  | wait blocked =>
    refine ⟨h, ?_, rfl, rfl⟩
    cases hq : c.exInstQueue with
    | nil => rfl
    | cons front rest =>
      exact absurd (h.compute front (hq ▸ List.mem_cons_self)) (blocked front rest hq)
  | @gemm front rest e queue ready isGemm alloc =>
    have hpipe := (allocDest_pipes alloc).computePipeline
    have hlast : lastOf [timed config c front] = lastOf [front] := lastOf_congr rfl rfl
    refine hentered queue alloc hlast rfl rfl rfl rfl ?_
    rw [← hpipe, ← List.append_assoc]
    exact List.perm_append_comm.append_right _
  | @vector front rest e cycles queue ready isGemm alloc =>
    have hlast : lastOf [{ front with
        startCycle := e.coreCycle, finishCycle := e.coreCycle + cycles }] = lastOf [front] :=
      lastOf_congr rfl rfl
    refine hentered queue alloc hlast rfl rfl rfl rfl ?_
    rw [← List.append_assoc]
    exact List.perm_append_comm

/-- The store that waits is executed. -/
theorem Sound.handleStInstQueue (h : Sound config c) (hd : handleStInstQueue config c = some d) :
    Sound config d ∧ d.stInstQueue = [] ∧ d.ldInstQueue = c.ldInstQueue ∧
      d.exInstQueue = c.exInstQueue := by
  rcases handleStInstQueue_effect hd with ⟨rfl, hq⟩ | ⟨x, rest, hq, hmiss, -⟩ |
    ⟨x, rest, n, fin, hq, -, hd'⟩
  · exact ⟨h, hq, rfl, rfl⟩
  · exact absurd (h.store x (hq ▸ List.mem_cons_self)).2 hmiss
  · have hone := h.one
    rw [hq, List.length_cons] at hone
    have hhand : c.inHand = [x] := h.inHand_eq (mem_inHand_of_store (hq ▸ List.mem_cons_self))
    obtain rfl : rest = [] := List.length_eq_zero_iff.mp (by omega)
    have hld : c.ldInstQueue = [] := List.length_eq_zero_iff.mp (by omega)
    have hex : c.exInstQueue = [] := List.length_eq_zero_iff.mp (by omega)
    have hidle : Idle d := hd' ▸ ⟨hld, hex, rfl⟩
    refine ⟨hidle.sound ?_, hidle.stInstQueue, hidle.ldInstQueue.trans hld.symm,
      hidle.exInstQueue.trans hex.symm⟩
    have hhoused := h.housed.finished (pendingLast_of_inHand hhand)
    rw [hidle.pendingLast, hd']
    exact hhoused

/-! ## A cycle -/

/-- The stages before the queues are looked at. -/
def finishPipelines (c : Core) : Option Core := do
  let c ← c.finishComputePipeline
  c.finishVectorPipeline

theorem beforeExecute_eq (c : Core) :
    beforeExecute config c = (c.finishPipelines).bind (Core.handleLdInstQueue config) := by
  unfold beforeExecute finishPipelines
  cases c.finishComputePipeline <;> rfl

theorem finishPipelines_queues (hd : c.finishPipelines = some d) : d.ldInstQueue = c.ldInstQueue ∧
    d.exInstQueue = c.exInstQueue ∧ d.stInstQueue = c.stInstQueue := by
  obtain ⟨e, he, hd⟩ := Option.bind_eq_some_iff.mp hd
  have he := finishComputePipeline_moves he
  have hd := finishVectorPipeline_moves hd
  exact ⟨hd.ldInstQueue.trans he.ldInstQueue, hd.exInstQueue.trans he.exInstQueue,
    hd.stInstQueue.trans he.stInstQueue⟩

theorem Sound.finishPipelines (h : Sound config c) (hd : c.finishPipelines = some d) :
    Sound config d := by
  obtain ⟨e, he, hd⟩ := Option.bind_eq_some_iff.mp hd
  exact (h.moves (finishComputePipeline_moves he)).moves (finishVectorPipeline_moves hd)

theorem Sound.beforeExecute (h : Sound config c) (hd : beforeExecute config c = some d) :
    Sound config d ∧ d.ldInstQueue = [] ∧ d.exInstQueue = c.exInstQueue ∧
      d.stInstQueue = c.stInstQueue := by
  rw [beforeExecute_eq] at hd
  obtain ⟨e, he, hd⟩ := Option.bind_eq_some_iff.mp hd
  obtain ⟨-, hex, hst⟩ := finishPipelines_queues he
  obtain ⟨hd, hld, hex', hst'⟩ := (h.finishPipelines he).handleLdInstQueue hd
  exact ⟨hd, hld, hex'.trans hex, hst'.trans hst⟩

/-- Whatever waited has been executed. -/
theorem Sound.handlePipelines (h : Sound config c) (hd : handlePipelines config c = some d) :
    Sound config d ∧ Idle d := by
  rw [handlePipelines_eq] at hd
  obtain ⟨e, he, hd⟩ := Option.bind_eq_some_iff.mp hd
  obtain ⟨f, hf, hd⟩ := Option.bind_eq_some_iff.mp hd
  obtain ⟨he, hld, -, -⟩ := h.beforeExecute he
  obtain ⟨hf, hex, hld', -⟩ := he.handleExInstQueue hf
  obtain ⟨hd, hst, hld'', hex'⟩ := hf.handleStInstQueue hd
  exact ⟨hd, hld''.trans (hld'.trans hld), hex'.trans hex, hst⟩

/-- The issue loop puts an instruction that passes its check into an empty queue. -/
theorem Idle.issued (hidle : Idle c) (hhoused : Housed c.tiles c.pendingLast) {i : Nat} {t : Tile}
    {inst : Instruction} {insts : List Instruction} (ht : c.tiles[i]? = some t)
    (hinsts : t.instructions = inst :: insts) (hq : Checked config c (prepare t inst) d) :
    Sound config { d with tiles := c.tiles.set i { t with instructions := insts }, tileRr := i } := by
  have htile : ∀ e : Core, e.inHand = [prepare t inst] →
      e.computePipeline = c.computePipeline → e.vectorPipeline = c.vectorPipeline →
      e.tiles = c.tiles.set i { t with instructions := insts } →
      Housed e.tiles e.pendingLast ∧ ∀ x ∈ e.inHand, AtHome e.tiles x := by
    intro e hhand hcompute hvector htiles
    have hpending := pendingLast_of_inHand hhand
    rw [hcompute, hvector, ← hidle.pendingLast] at hpending
    rw [htiles, hhand]
    refine ⟨hhoused.issued ht hinsts hpending, fun x hx => ?_⟩
    obtain rfl := List.mem_singleton.mp hx
    exact AtHome.issued ht hinsts
  have hld := hidle.ldInstQueue
  have hex := hidle.exInstQueue
  have hst := hidle.stInstQueue
  cases hq with
  | ld opcode free remain =>
    obtain ⟨hhoused', hhome⟩ := htile { c with
      ldInstQueue := c.ldInstQueue ++ [prepare t inst]
      tiles := c.tiles.set i { t with instructions := insts }, tileRr := i }
      (by unfold Core.inHand; rw [hld, hex, hst]; rfl) rfl rfl rfl
    refine ⟨hhoused', ?_, ?_, hhome, ?_, ?_, ?_⟩ <;> simp only [hld, hex, hst, List.nil_append]
    · exact Nat.le_refl _
    · exact List.not_mem_nil
    · intro x hx
      obtain rfl := List.mem_singleton.mp hx
      exact ⟨opcode, free, remain⟩
    · exact fun x hx => absurd hx List.not_mem_nil
    · exact fun x hx => absurd hx List.not_mem_nil
  | st opcode valid =>
    obtain ⟨hhoused', hhome⟩ := htile { c with
      stInstQueue := c.stInstQueue ++ [some (prepare t inst)]
      tiles := c.tiles.set i { t with instructions := insts }, tileRr := i }
      (by unfold Core.inHand; rw [hld, hex, hst]; rfl) rfl rfl rfl
    refine ⟨hhoused', ?_, ?_, hhome, ?_, ?_, ?_⟩ <;> simp only [hld, hex, hst, List.nil_append]
    · exact Nat.le_refl _
    · simp
    · exact fun x hx => absurd hx List.not_mem_nil
    · exact fun x hx => absurd hx List.not_mem_nil
    · intro x hx
      obtain rfl := Option.some.inj (List.mem_singleton.mp hx)
      exact ⟨opcode, valid⟩
  | ex load store ready =>
    obtain ⟨hhoused', hhome⟩ := htile { c with
      exInstQueue := c.exInstQueue ++ [prepare t inst]
      tiles := c.tiles.set i { t with instructions := insts }, tileRr := i }
      (by unfold Core.inHand; rw [hld, hex, hst]; rfl) rfl rfl rfl
    refine ⟨hhoused', ?_, ?_, hhome, ?_, ?_, ?_⟩ <;> simp only [hld, hex, hst, List.nil_append]
    · exact Nat.le_refl _
    · exact List.not_mem_nil
    · exact fun x hx => absurd hx List.not_mem_nil
    · intro x hx
      obtain rfl := List.mem_singleton.mp hx
      exact ready
    · exact fun x hx => absurd hx List.not_mem_nil

/-- A call of `cycle` up to the retirement loop. -/
theorem Sound.beforeRetirement (h : Sound config c) (hd : beforeRetirement config c = some d) :
    Sound config d := by
  obtain ⟨e, he, hd⟩ := beforeRetirement_eq_some hd
  obtain ⟨he, hidle⟩ := h.handlePipelines he
  unfold issueInstructions at hd
  have hloop := issueFrom_once (P := fun c => Idle c ∧ Housed c.tiles c.pendingLast)
    (Q := Sound config) ?_ ?_ ?_ hd
  · rcases hloop with ⟨hidle, hhoused⟩ | hsound
    · exact hidle.sound hhoused
    · exact hsound
  · intro c i t inst insts ⟨hidle, hhoused⟩ ht hinsts
    exact ⟨⟨hidle.ldInstQueue, hidle.exInstQueue, hidle.stInstQueue⟩, hhoused.prepared ht hinsts⟩
  · intro c i t inst insts q ⟨hidle, hhoused⟩ ht hinsts hq
    exact hidle.issued hhoused ht hinsts hq
  · exact ⟨⟨hidle.ldInstQueue, hidle.exInstQueue, hidle.stInstQueue⟩, he.housed⟩

theorem Sound.cycle (h : Sound config c) (hd : cycle config c = some d) : Sound config d := by
  obtain ⟨e, he, hd⟩ := Option.bind_eq_some_iff.mp hd
  obtain rfl := Option.some.inj hd
  exact (h.beforeRetirement he).moves (retire_moves e)

/-! ## Runs -/

/-- The core can take the tile, which is as an operation created it, at an address of its own. -/
structure Fresh (c : Core) (op : Tile) : Prop where
  canIssue : c.canIssue
  unfinished : op.instFinished = false
  unmarked : ∀ k ∈ op.instructions, k.lastInst = false
  apart : ∀ t ∈ c.tiles, t.ptr ≠ op.ptr

theorem fresh_iff (c : Core) (op : Tile) : Fresh c op ↔ c.canIssue ∧ op.instFinished = false ∧
    (∀ k ∈ op.instructions, k.lastInst = false) ∧ ∀ t ∈ c.tiles, t.ptr ≠ op.ptr :=
  ⟨fun ⟨h₁, h₂, h₃, h₄⟩ => ⟨h₁, h₂, h₃, h₄⟩, fun ⟨h₁, h₂, h₃, h₄⟩ => ⟨h₁, h₂, h₃, h₄⟩⟩

/-- The tiles that are issued are fresh. -/
def Proper (c : Core) : Act → Prop
  | .issue op => Fresh c op
  | _ => True

instance (c : Core) : (a : Act) → Decidable (Proper c a)
  | .issue op => decidable_of_iff' _ (fresh_iff c op)
  | .cycle | .popFinishedTile | .popMemoryRequest | .pushMemoryResponse _ => isTrue trivial

/-- The tiles that run keep what their instructions wait for when another one is issued. -/
theorem issue_moves {op : Tile} (hop : Fresh c op) : Moves c (c.issue op) := by
  have hld := (issue_spec c op).ldInstQueue
  have hst := (issue_spec c op).stInstQueue
  have hex := (issue_pipes c op).exInstQueue
  have hpending : (c.issue op).pendingLast = c.pendingLast := by
    unfold pendingLast inHand
    rw [hld, hst, hex, issue_vectorPipeline, (issue_pipes c op).computePipeline]
  refine ⟨hld, hex, hst, fun x hx => Eases.issue op hop.canIssue rfl hx, fun _ x _ hx => ?_,
    fun h => ?_⟩
  · rw [issue_tiles_eq]
    split
    · exact hx
    · exact hx.append _
  · rw [hpending, issue_tiles_eq]
    split
    · exact h
    · exact h.append hop.apart hop.unfinished hop.unmarked

theorem Sound.step {a : Act} (h : Sound config c) (ha : Proper c a)
    (hd : step config c a = some d) : Sound config d := by
  cases a with
  | issue op =>
    obtain rfl := Option.some.inj hd
    exact h.moves (issue_moves ha)
  | cycle => exact h.cycle hd
  | popFinishedTile =>
    obtain rfl := Option.some.inj hd
    exact h.moves (Moves.of_eq rfl rfl rfl rfl rfl rfl rfl rfl rfl)
  | popMemoryRequest =>
    obtain ⟨⟨m, e⟩, he, rfl⟩ := Option.map_eq_some_iff.mp hd
    rw [(popMemoryRequest_eq_some he).2]
    exact h.moves (Moves.of_eq rfl rfl rfl rfl rfl rfl rfl rfl rfl)
  | pushMemoryResponse response =>
    rcases pushMemoryResponse_effect hd with ⟨n, rfl⟩ | ⟨slot, s, hs, rfl⟩
    · exact h.moves (Moves.of_eq rfl rfl rfl rfl rfl rfl rfl rfl rfl)
    · exact h.moves (Moves.fill hs)

theorem Run.sound {id layerId fusedOpId : Nat} {h : List (Core × Act)}
    (run : Run config id layerId fusedOpId h c) (hproper : Machine.EachStep Proper h) :
    Sound config c := by
  have hinit : Sound config (init config id layerId fusedOpId) := by
    refine Idle.sound ⟨rfl, rfl, rfl⟩ ⟨List.nodup_nil, ?_, ?_, ?_⟩
    · exact fun t ht => absurd ht List.not_mem_nil
    · exact fun t ht => absurd ht List.not_mem_nil
    · exact fun o ho => absurd ho List.not_mem_nil
  exact Machine.Run.invariant_of run hinit (fun _ _ _ hc ha hstep => hc.step ha hstep) hproper

/-- At most one instruction waits, and the next call of `cycle` executes it: its check is true where
the call makes it again. -/
structure ChecksHold (config : SimulationConfig) (c : Core) : Prop where
  one : c.ldInstQueue.length + c.exInstQueue.length + c.stInstQueue.length ≤ 1
  load : ∀ x ∈ c.ldInstQueue, x.opcode = .MOVIN ∧ ∀ d, c.finishPipelines = some d →
    ∃ s, (d.buffer x.toAccum).prefetch x.destAddr x.bufferId x.size x.size = some s
  compute : ∀ x ∈ c.exInstQueue, ∀ d, beforeExecute config c = some d → canIssueCompute config d x
  store : ∀ x, some x ∈ c.stInstQueue → isStore x.opcode ∧ ∀ d,
    (beforeExecute config c).bind (handleExInstQueue config) = some d →
      (d.buffer x.toAccum).checkHit x.destAddr x.bufferId
  /-- No pointer in the store queue is null. -/
  held : none ∉ c.stInstQueue
  popped : ∀ d, handlePipelines config c = some d →
    d.ldInstQueue = [] ∧ d.exInstQueue = [] ∧ d.stInstQueue = []

/-- A tile that loads two chunks. -/
def loadTile : Tile :=
  { status := .INITIALIZED
    instructions := [{ opcode := .MOVIN, destAddr := 0, size := 1, srcAddrs := [0] },
      { opcode := .MOVIN, destAddr := 32, size := 1, srcAddrs := [32] }] }

/-- Another tile is issued while the first load waits. -/
def waitingCalls : List Act := [.issue loadTile, .cycle, .issue { preloadTile with ptr := 1 }]

end Core

end OnnxSim
