import OnnxSim.Core.Pipeline

/-!
# The timing of weight loads

A tile of `GEMM_PRELOAD`s without sources, alone on a square array. The first waits for its weights;
from then on an instruction starts whenever the slot of its predecessor ends. That needs two things of
the core: the next instruction is in the execute queue before the slot ends, and the pipeline has not
run empty by then. Both follow from the pace at which a single tile issues (`Paced`): one instruction a
cycle until the pipeline holds as many as the array has rows, then one for each that finishes, which
still is early enough because the slots of a full pipeline last longer than the latency of one
instruction (`latency_lt_slots`).
-/

namespace OnnxSim

/-- The instruction without what the issue loop and the pipeline write into it. -/
def Instruction.bare (x : Instruction) : Instruction :=
  { x with startCycle := 0, finishCycle := 0, spadId := 0, accumSpadId := 0, lastInst := false,
           myTile := none, owner := 0 }

/-- A weight load without sources. -/
structure Instruction.IsPreload (cs : Nat) (x : Instruction) : Prop where
  opcode : x.opcode = .GEMM_PRELOAD
  computeSize : x.computeSize = cs
  srcAddrs : x.srcAddrs = []

namespace Core

variable {config : SimulationConfig} {H cs : Nat} {c d e : Core} {all E : List Instruction}

/-- How many cycles lie between the starts of two weight loads on an array of `H` rows. -/
def spacing (H cs : Nat) : Nat := max (max cs 4) H

/-- How long a weight load takes from its start. -/
def latency (H cs : Nat) : Nat := 2 * H - 2 + max cs 4

theorem spacing_lt_latency (hH : 4 ≤ H) (cs : Nat) : spacing H cs < latency H cs := by
  unfold spacing latency
  omega

/-- The slots of a full pipeline last longer than the latency of one instruction. -/
theorem latency_lt_slots (hH : 4 ≤ H) (cs : Nat) {n : Nat} (hn : H ≤ n) :
    latency H cs + 1 ≤ n * spacing H cs := by
  have hfour : 4 * spacing H cs ≤ n * spacing H cs := Nat.mul_le_mul_right _ (hH.trans hn)
  have hheight : n * H ≤ n * spacing H cs := Nat.mul_le_mul_left _ (Nat.le_max_right _ _)
  have hsquare : 4 * H ≤ n * H := Nat.mul_le_mul_right _ (hH.trans hn)
  unfold latency
  unfold spacing at hfour hheight ⊢
  omega

/-! ## What stays the same -/

theorem prepare_bare (t : Tile) (x : Instruction) : (prepare t x).bare = x.bare := by
  unfold prepare
  split <;> rfl

theorem prepare_isPreload {t : Tile} {x : Instruction} (h : x.IsPreload cs) :
    (prepare t x).IsPreload cs := by
  unfold prepare
  split <;> exact ⟨h.opcode, h.computeSize, h.srcAddrs⟩

/-- The instructions that the tiles still hold. -/
def waiting (c : Core) : List Instruction := c.tiles.flatMap (·.instructions)

theorem waiting_of_unmarked (h : d.tiles.map Tile.unmarked = c.tiles.map Tile.unmarked) :
    d.waiting = c.waiting ∧ d.tiles.length = c.tiles.length := by
  constructor
  · have hwait : ∀ l : List Tile, l.flatMap (·.instructions) =
        (l.map Tile.unmarked).flatMap (·.instructions) := by
      intro l
      rw [List.flatMap_map]
      rfl
    unfold waiting
    rw [hwait, h, ← hwait]
  · have hlength := congrArg List.length h
    simpa using hlength

theorem beforeExecute_tiles (h : beforeExecute config c = some e) :
    e.tiles.map Tile.unmarked = c.tiles.map Tile.unmarked := by
  obtain ⟨c₁, h₁, h⟩ := Option.bind_eq_some_iff.mp h
  obtain ⟨c₂, h₂, h⟩ := Option.bind_eq_some_iff.mp h
  have htiles := ((finishComputePipeline_frame h₁).trans (finishVectorPipeline_frame h₂)).tiles
  rcases handleLdInstQueue_cases h with rfl | ⟨x, -, -, -, hex⟩
  · exact htiles
  · exact hex.tiles.trans htiles

theorem handleStInstQueue_tiles (h : handleStInstQueue config c = some d) :
    d.tiles.map Tile.unmarked = c.tiles.map Tile.unmarked := by
  rcases handleStInstQueue_cases h with rfl | ⟨rest, rfl, -⟩ | ⟨x, -, -, -, hex⟩
  · rfl
  · rfl
  · exact hex.tiles

/-- Retirement takes a tile that has nothing left. -/
theorem retire_waiting (c : Core) :
    c.retire.waiting = c.waiting ∧ c.retire.tiles.length ≤ c.tiles.length := by
  rcases retire_cases c with h | ⟨i, t, -, ht, hready, h⟩
  · rw [h]
    exact ⟨rfl, Nat.le_refl _⟩
  · rw [h]
    obtain ⟨hlt, rfl⟩ := List.getElem?_eq_some_iff.mp ht
    refine ⟨?_, List.length_eraseIdx_le ..⟩
    have hnil : c.tiles[i].instructions = [] := by
      simpa using (Bool.and_eq_true_iff.mp hready).1
    unfold waiting
    simp only
    rw [List.eraseIdx_eq_take_drop_succ, List.flatMap_append]
    conv_rhs => rw [← List.take_append_drop i c.tiles, List.drop_eq_getElem_cons hlt,
      List.flatMap_append, List.flatMap_cons, hnil, List.nil_append]

/-! ## Issue from a single tile -/

/-- What one pass of the issue loop does: the front of a tile goes into the execute queue, or it has to
stay. -/
inductive Issues (config : SimulationConfig) (cs : Nat) (c d : Core) : Prop
  | stays (queue : d.exInstQueue = c.exInstQueue)
      (same : d.waiting.map Instruction.bare = c.waiting.map Instruction.bare)
      (preload : ∀ x ∈ d.waiting, x.IsPreload cs)
      (blocked : c.waiting = [] ∨ c.exInstQueue ≠ [] ∨
        (config.coreConfig c.id).coreHeight ≤ c.computePipeline.length)
  | issued {x inst : Instruction} {insts : List Instruction} (free : c.exInstQueue = [])
      (queue : d.exInstQueue = [x]) (preload : x.IsPreload cs) (same : x.bare = inst.bare)
      (front : c.waiting = inst :: insts) (rest : d.waiting = insts)
      (room : c.computePipeline.length < (config.coreConfig c.id).coreHeight)

theorem canIssueCompute_preload {x : Instruction} (hx : x.IsPreload cs) :
    canIssueCompute config c x =
      decide (c.computePipeline.length < (config.coreConfig c.id).coreHeight) := by
  unfold canIssueCompute operandsReady
  rw [hx.srcAddrs, hx.opcode]
  rfl

theorem tryIssue_preload {x : Instruction} (hx : x.IsPreload cs) :
    tryIssue config c x = some (if c.exInstQueue.isEmpty && canIssueCompute config c x then
      some { c with exInstQueue := c.exInstQueue ++ [x] } else none) := by
  unfold tryIssue
  rw [hx.opcode]
  simp only [reduceCtorEq, if_false, isStore, Bool.false_eq_true]
  split <;> rfl

theorem issueFrom_single {t : Tile} (htiles : c.tiles = [t])
    (hpre : ∀ x ∈ c.waiting, x.IsPreload cs) (h : issueFrom config c [0] = some d) :
    d.tiles.length = 1 ∧ Issues config cs c d := by
  have hfront : c.tiles[0]? = some t := by rw [htiles]; rfl
  have hwaiting : c.waiting = t.instructions := by
    unfold waiting
    rw [htiles, List.flatMap_singleton]
  unfold issueFrom at h
  rw [hfront] at h
  cases hinsts : t.instructions with
  | nil =>
    rw [hinsts] at hwaiting
    simp only [hinsts, issueFrom] at h
    obtain rfl := Option.some.inj h
    exact ⟨by rw [htiles]; rfl, .stays rfl rfl hpre (.inl hwaiting)⟩
  | cons inst insts =>
    rw [hinsts] at hwaiting
    have hinst : (prepare t inst).IsPreload cs :=
      prepare_isPreload (hpre inst (hwaiting ▸ List.mem_cons_self))
    simp only [hinsts, htiles, tryIssue_preload hinst, canIssueCompute_preload hinst,
      Option.bind_eq_bind, Option.bind_some, List.set_cons_zero, issueFrom] at h
    split at h
    · rename_i q hq
      split at hq
      · rename_i hfree
        obtain rfl := Option.some.inj hq
        obtain rfl := Option.some.inj h
        obtain ⟨hempty, hroom⟩ := Bool.and_eq_true_iff.mp hfree
        have hnil : c.exInstQueue = [] := by simpa using hempty
        refine ⟨rfl, .issued hnil ?_ hinst (prepare_bare t inst) hwaiting ?_
          (of_decide_eq_true hroom)⟩
        · simp only [hnil, List.nil_append]
        · simp [waiting]
      · cases hq
    · rename_i hq
      obtain rfl := Option.some.inj h
      refine ⟨rfl, .stays rfl ?_ ?_ (.inr ?_)⟩
      · rw [hwaiting]
        simp [waiting, prepare_bare]
      · intro x hx
        simp only [waiting, List.flatMap_singleton, List.mem_cons] at hx
        rcases hx with rfl | hx
        · exact hinst
        · exact hpre x (hwaiting ▸ List.mem_cons_of_mem _ hx)
      · split at hq
        · cases hq
        · rename_i hfree
          by_cases hnil : c.exInstQueue = []
          · refine .inr (Nat.le_of_not_lt fun hlt => hfree ?_)
            rw [hnil, decide_eq_true hlt]
            rfl
          · exact .inl hnil

theorem issueInstructions_single (hfew : c.tiles.length ≤ 1)
    (hpre : ∀ x ∈ c.waiting, x.IsPreload cs) (h : issueInstructions config c = some d) :
    d.tiles.length ≤ 1 ∧ Issues config cs c d := by
  have hticked : issueFrom config { c with coreCycle := c.coreCycle + 1 }
    (issueOrder { c with coreCycle := c.coreCycle + 1 }) = some d := h
  cases htiles : c.tiles with
  | nil =>
    have horder : issueOrder { c with coreCycle := c.coreCycle + 1 } = [] := by
      simp [issueOrder, htiles]
    rw [horder] at hticked
    obtain rfl := Option.some.inj hticked
    exact ⟨hfew, .stays rfl rfl hpre (.inl (by simp [waiting, htiles]))⟩
  | cons t rest =>
    have hsingle : c.tiles = [t] := by
      rw [htiles, List.length_cons] at hfew
      rw [htiles, List.length_eq_zero_iff.mp (by omega : rest.length = 0)]
    have horder : issueOrder { c with coreCycle := c.coreCycle + 1 } = [0] := by
      simp [issueOrder, hsingle, Nat.mod_one]
    rw [horder] at hticked
    obtain ⟨hlength, hissue⟩ := issueFrom_single
      (c := { c with coreCycle := c.coreCycle + 1 }) hsingle hpre hticked
    refine ⟨Nat.le_of_eq hlength, ?_⟩
    cases hissue with
    | stays queue same preload blocked => exact .stays queue same preload blocked
    | issued free queue preload same front rest room =>
      exact .issued free queue preload same front rest room

/-! ## The pace -/

/-- The `k`-th instruction that has entered starts `k` slots after the first. -/
def Scheduled (H cs : Nat) (E : List Instruction) : Prop :=
  ∀ first, E.head? = some first → ∀ k y, E[k]? = some y →
    y.startCycle = first.startCycle + k * spacing H cs ∧
      y.finishCycle = y.startCycle + latency H cs ∧ y.computeSize = cs

/-- A core that runs the weight loads `all`, of which those in `E` have entered the pipeline. An
instruction that waits in the execute queue finds room and its slot; if none waits there, all have
entered, or the pipeline is full, or there still is a cycle left to issue one. -/
structure Poised (config : SimulationConfig) (H cs : Nat) (all E : List Instruction) (c : Core) :
    Prop where
  height : (config.coreConfig c.id).coreHeight = H
  width : (config.coreConfig c.id).coreWidth = H
  few : c.tiles.length ≤ 1
  queue : c.exInstQueue.length ≤ 1
  order : (E ++ c.exInstQueue ++ c.waiting).map Instruction.bare = all.map Instruction.bare
  preload : ∀ x ∈ c.exInstQueue ++ c.waiting, x.IsPreload cs
  suffix : c.computePipeline <:+ E
  times : Scheduled H cs E
  room : c.exInstQueue ≠ [] → c.computePipeline.length < H
  ready : ∀ first, E.head? = some first → c.exInstQueue ≠ [] →
    c.computePipeline ≠ [] ∧ c.coreCycle ≤ first.startCycle + E.length * spacing H cs
  spare : ∀ first, E.head? = some first → c.exInstQueue = [] →
    c.waiting = [] ∨ H ≤ c.computePipeline.length ∨
      (c.computePipeline ≠ [] ∧ c.coreCycle + 1 ≤ first.startCycle + E.length * spacing H cs)

/-- Between two cycles the spare cycle has been used. -/
structure Paced (config : SimulationConfig) (H cs : Nat) (all E : List Instruction) (c : Core) : Prop
    extends Poised config H cs all E c where
  full : E ≠ [] → c.exInstQueue = [] → c.waiting = [] ∨ H ≤ c.computePipeline.length

theorem Poised.congr (h : Poised config H cs all E c) (hpipes : SamePipes c d)
    (htiles : d.tiles.map Tile.unmarked = c.tiles.map Tile.unmarked) :
    Poised config H cs all E d := by
  obtain ⟨hwaiting, hlength⟩ := waiting_of_unmarked htiles
  constructor <;> try simp only [hpipes.id, hpipes.coreCycle, hpipes.computePipeline,
    hpipes.exInstQueue, hwaiting, hlength]
  exacts [h.height, h.width, h.few, h.queue, h.order, h.preload, h.suffix, h.times, h.room, h.ready,
    h.spare]

theorem Paced.congr (h : Paced config H cs all E c) (hpipes : SamePipes c d)
    (htiles : d.tiles.map Tile.unmarked = c.tiles.map Tile.unmarked) :
    Paced config H cs all E d := by
  refine ⟨h.toPoised.congr hpipes htiles, ?_⟩
  rw [hpipes.exInstQueue, hpipes.computePipeline, (waiting_of_unmarked htiles).1]
  exact h.full

/-- The instruction at the front of the pipeline has its place in the schedule. -/
theorem Poised.front (h : Poised config H cs all E c) {x : Instruction} {rest : List Instruction}
    (hpipe : c.computePipeline = x :: rest) {first : Instruction} (hfirst : E.head? = some first) :
    ∃ k, E.length = k + (rest.length + 1) ∧
      x.finishCycle = first.startCycle + k * spacing H cs + latency H cs := by
  obtain ⟨out, hout⟩ := h.suffix
  rw [hpipe] at hout
  have hx : E[out.length]? = some x := by
    rw [← hout, List.getElem?_append_right (Nat.le_refl _), Nat.sub_self]
    rfl
  obtain ⟨hstart, hfinish, -⟩ := h.times first hfirst _ _ hx
  refine ⟨out.length, ?_, by rw [hfinish, hstart]⟩
  rw [← hout, List.length_append, List.length_cons]

/-- One instruction may leave the pipeline before the execute queue is looked at. -/
theorem Paced.beforeExecute (hH : 4 ≤ H) (h : Paced config H cs all E c)
    (hflight : InFlight config c) (he : Core.beforeExecute config c = some e) :
    Poised config H cs all E e := by
  obtain ⟨c₁, hpop, hsame⟩ := beforeExecute_pipes he
  have htiles := beforeExecute_tiles he
  obtain ⟨hid, hcycle, ⟨-, hpipe⟩ | ⟨x, rest, hpipe, hdue, hrest⟩⟩ :=
    finishComputePipeline_pipeline hpop
  · have hex : e.exInstQueue = c.exInstQueue := hsame.exInstQueue.trans
      (finishComputePipeline_queue hpop)
    exact h.toPoised.congr ⟨hsame.id.trans hid, hsame.coreCycle.trans hcycle,
      hsame.computePipeline.trans hpipe, hex⟩ htiles
  · have hex : e.exInstQueue = c.exInstQueue := hsame.exInstQueue.trans
      (finishComputePipeline_queue hpop)
    have hcp : e.computePipeline = rest := hsame.computePipeline.trans hrest
    have hclock : e.coreCycle = c.coreCycle := hsame.coreCycle.trans hcycle
    have hnow : x.finishCycle = c.coreCycle :=
      Nat.le_antisymm hdue (hflight.due x (hpipe ▸ List.mem_cons_self))
    obtain ⟨hwaiting, hlength⟩ := waiting_of_unmarked htiles
    have hroom := h.room
    have hready := h.ready
    have hspare := h.full
    rw [hpipe, List.length_cons] at hroom hspare
    constructor <;> try simp only [hsame.id, hid, hclock, hcp, hex, hwaiting, hlength]
    · exact h.height
    · exact h.width
    · exact h.few
    · exact h.queue
    · exact h.order
    · exact h.preload
    · exact (List.suffix_cons x rest).trans (hpipe ▸ h.suffix)
    · exact h.times
    · exact fun hne => Nat.lt_of_succ_lt (hroom hne)
    · -- the last instruction of the pipeline is not the one that leaves
      intro first hfirst hne
      obtain ⟨-, hpace⟩ := hready first hfirst hne
      obtain ⟨k, hk, hfinish⟩ := h.front hpipe hfirst
      refine ⟨?_, hpace⟩
      rintro rfl
      have hlt := spacing_lt_latency hH cs
      rw [hk, List.length_nil, Nat.zero_add, Nat.succ_mul] at hpace
      omega
    · -- a full pipeline lasts longer than the instruction that leaves it
      intro first hfirst hnil
      obtain ⟨k, hk, hfinish⟩ := h.front hpipe hfirst
      have hne : E ≠ [] := by
        rintro rfl
        cases hfirst
      refine (hspare hne hnil).imp_right fun hfull => .inr ⟨?_, ?_⟩
      · rintro rfl
        rw [List.length_nil] at hfull
        omega
      · have hslots := latency_lt_slots hH cs hfull
        rw [hk, Nat.add_mul]
        omega

theorem timed_bare (c : Core) (x : Instruction) : (timed config c x).bare = x.bare := rfl

/-- A weight load that enters the empty pipeline first waits for its weights. -/
theorem gemmStart_of_nil {x : Instruction} (hx : x.IsPreload cs) (hnil : c.computePipeline = []) :
    gemmStart config c x = c.coreCycle + ((config.coreConfig c.id).coreHeight +
      (config.coreConfig c.id).coreHeight - 1) := by
  unfold gemmStart
  rw [hnil, hx.opcode]
  rfl

/-- The instruction in the execute queue takes the next slot. -/
theorem Poised.gemmStart_eq (h : Poised config H cs all E c) {front : Instruction}
    (hfront : front.IsPreload cs) (hqueue : c.exInstQueue ≠ []) {first : Instruction}
    (hfirst : E.head? = some first) :
    gemmStart config c front = first.startCycle + E.length * spacing H cs := by
  obtain ⟨hne, hpace⟩ := h.ready first hfirst hqueue
  obtain ⟨init, back, hpipe⟩ := (List.eq_nil_or_concat' _).resolve_left hne
  have hlast : c.computePipeline.getLast? = some back := by
    rw [hpipe, List.getLast?_append_of_ne_nil _ (List.cons_ne_nil _ _)]
    rfl
  obtain ⟨out, hout⟩ := h.suffix
  rw [hpipe, ← List.append_assoc] at hout
  have hback : E[(out ++ init).length]? = some back := by
    rw [← hout, List.getElem?_append_right (Nat.le_refl _), Nat.sub_self]
    rfl
  have hlength : E.length = (out ++ init).length + 1 := by
    rw [← hout, List.length_append, List.length_singleton]
  obtain ⟨hstart, -, hsize⟩ := h.times first hfirst _ _ hback
  have hocc : occupancy config c back front = spacing H cs := by
    unfold occupancy spacing
    rw [if_pos hfront.opcode, hsize, h.height]
  have hslot : back.startCycle + occupancy config c back front =
      first.startCycle + E.length * spacing H cs := by
    rw [hocc, hstart, hlength, Nat.succ_mul, Nat.add_assoc]
  rw [gemmStart_of_getLast hlast, hslot, if_neg (by omega)]

theorem Scheduled.snoc (h : Scheduled H cs E) {x : Instruction} (hsize : x.computeSize = cs)
    (hfinish : x.finishCycle = x.startCycle + latency H cs)
    (hstart : ∀ first, E.head? = some first →
      x.startCycle = first.startCycle + E.length * spacing H cs) :
    Scheduled H cs (E ++ [x]) := by
  intro first hfirst k y hy
  cases E with
  | nil =>
    obtain rfl := Option.some.inj hfirst
    have hk : k = 0 := by
      have := (List.getElem?_eq_some_iff.mp hy).1
      simpa using this
    subst hk
    obtain rfl := Option.some.inj hy
    exact ⟨by omega, hfinish, hsize⟩
  | cons first' rest =>
    obtain rfl : first' = first := Option.some.inj hfirst
    rcases Nat.lt_or_ge k (first' :: rest).length with hk | hk
    · rw [List.getElem?_append_left hk] at hy
      exact h first' rfl k y hy
    · have hlast : k = (first' :: rest).length := by
        have := (List.getElem?_eq_some_iff.mp hy).1
        rw [List.length_append, List.length_singleton] at this
        omega
      rw [hlast, List.getElem?_append_right (Nat.le_refl _), Nat.sub_self] at hy
      obtain rfl := Option.some.inj hy
      exact ⟨hlast ▸ hstart first' rfl, hfinish, hsize⟩

/-- The front of the execute queue enters the pipeline. -/
theorem Poised.execute (hH : 4 ≤ H) (h : Poised config H cs all E c)
    (hd : handleExInstQueue config c = some d) :
    Poised config H cs all (E ++ (entering config c).toList) d ∧ d.exInstQueue = [] := by
  have hframe := handleExInstQueue_frame hd
  obtain ⟨hwaiting, hlength⟩ := waiting_of_unmarked hframe.tiles
  have hexec := handleExInstQueue_executes hd
  have hentering := hexec.entering_eq
  cases hexec with
  | wait blocked =>
    have hnil : c.exInstQueue = [] := by
      cases hq : c.exInstQueue with
      | nil => rfl
      | cons front rest =>
        have hroom := h.room (by rw [hq]; exact List.cons_ne_nil _ _)
        have hpre := h.preload front (by rw [hq]; exact List.mem_cons_self)
        refine absurd ?_ (blocked front rest hq)
        rw [canIssueCompute_preload hpre, h.height]
        exact decide_eq_true hroom
    rw [entering_of_nil hnil, Option.toList_none, List.append_nil]
    exact ⟨h, hnil⟩
  | vector queue ready isGemm alloc =>
    have hpre := h.preload _ (by rw [queue]; exact List.mem_cons_self)
    rw [hpre.opcode] at isGemm
    exact absurd rfl isGemm
  | @gemm front rest e queue ready isGemm alloc =>
    have hpre := h.preload front (by rw [queue]; exact List.mem_cons_self)
    have hne : c.exInstQueue ≠ [] := by
      rw [queue]
      exact List.cons_ne_nil _ _
    obtain rfl : rest = [] := by
      have hle := h.queue
      rw [queue, List.length_cons] at hle
      exact List.length_eq_zero_iff.mp (by omega)
    have henter : entering config c = some (timed config c front) := by
      rw [entering_of_cons queue, ready, isGemm]
      rfl
    have hstart : ∀ first, E.head? = some first →
        gemmStart config c front = first.startCycle + E.length * spacing H cs :=
      fun first hfirst => h.gemmStart_eq hpre hne hfirst
    have hsnoc : Scheduled H cs (E ++ [timed config c front]) := by
      refine h.times.snoc hpre.computeSize ?_ hstart
      change gemmStart config c front + getInstComputeCycles config c front =
        gemmStart config c front + latency H cs
      unfold getInstComputeCycles latency
      rw [h.height, h.width, hpre.computeSize]
      omega
    rw [henter, Option.toList_some]
    refine ⟨⟨?_, ?_, ?_, Nat.zero_le _, ?_, ?_, ?_, hsnoc, fun hne => absurd rfl hne,
      fun _ _ hne => absurd rfl hne, ?_⟩, rfl⟩
    · rw [hframe.id]
      exact h.height
    · rw [hframe.id]
      exact h.width
    · rw [hlength]
      exact h.few
    · have horder := h.order
      rw [queue] at horder
      rw [hwaiting, List.append_nil, ← horder]
      simp [timed_bare]
    · rw [hwaiting]
      exact fun x hx => h.preload x (List.mem_append_right _ hx)
    · exact (List.suffix_append_inj_of_length_eq rfl).mpr ⟨h.suffix, rfl⟩
    · intro first hfirst _
      refine .inr (.inr ⟨by simp, ?_⟩)
      rw [hframe.coreCycle, List.length_append, List.length_singleton, Nat.succ_mul]
      have hpos : 4 ≤ spacing H cs := hH.trans (Nat.le_max_right _ _)
      cases E with
      | nil =>
        obtain rfl := Option.some.inj hfirst
        have hnow : c.coreCycle ≤ (timed config c front).startCycle := le_gemmStart config c front
        omega
      | cons first' rest =>
        obtain rfl : first' = first := Option.some.inj hfirst
        have := (h.ready first' rfl hne).2
        omega

/-- The issue loop uses the spare cycle. -/
theorem Poised.issue (h : Poised config H cs all E c) (hempty : c.exInstQueue = [])
    (hd : issueInstructions config c = some d) : Paced config H cs all E d := by
  obtain ⟨hid, hpipe⟩ := issueInstructions_pipeline hd
  have hclock := issueInstructions_coreCycle hd
  obtain ⟨hfew, hissue⟩ := issueInstructions_single h.few
    (fun x hx => h.preload x (List.mem_append_right _ hx)) hd
  have horder := h.order
  rw [hempty, List.append_nil] at horder
  cases hissue with
  | stays queue same preload blocked =>
    rw [hempty] at queue
    have hfull : d.waiting = [] ∨ H ≤ d.computePipeline.length := by
      rw [hpipe, ← h.height]
      rcases blocked with hnil | hne | hfull
      · rw [hnil] at same
        exact .inl (List.map_eq_nil_iff.mp same)
      · exact absurd hempty hne
      · exact .inr hfull
    refine ⟨⟨?_, ?_, hfew, ?_, ?_, ?_, ?_, h.times, ?_, ?_, ?_⟩, fun _ _ => hfull⟩
    · rw [hid]
      exact h.height
    · rw [hid]
      exact h.width
    · rw [queue]
      exact Nat.zero_le _
    · rw [queue, List.append_nil, List.map_append, same, ← List.map_append, horder]
    · rw [queue]
      exact preload
    · rw [hpipe]
      exact h.suffix
    · exact fun hne => absurd queue hne
    · exact fun _ _ hne => absurd queue hne
    · exact fun _ _ _ => hfull.imp_right .inl
  | @issued x inst insts free queue preload same front rest room =>
    have hne : d.exInstQueue ≠ [] := by
      rw [queue]
      exact List.cons_ne_nil _ _
    refine ⟨⟨?_, ?_, hfew, ?_, ?_, ?_, ?_, h.times, ?_, ?_, ?_⟩, fun _ hnil => absurd hnil hne⟩
    · rw [hid]
      exact h.height
    · rw [hid]
      exact h.width
    · rw [queue]
      exact Nat.le_refl _
    · rw [queue, rest, ← horder, front]
      simp [same]
    · rw [queue, rest]
      intro y hy
      rcases List.mem_append.mp hy with hy | hy
      · obtain rfl := List.mem_singleton.mp hy
        exact preload
      · exact h.preload y (List.mem_append_right _ (front ▸ List.mem_cons_of_mem _ hy))
    · rw [hpipe]
      exact h.suffix
    · rw [hpipe, ← h.height]
      exact fun _ => room
    · intro first hfirst _
      rw [hpipe, hclock]
      rcases h.spare first hfirst hempty with hnil | hfull | hspare
      · rw [front] at hnil
        cases hnil
      · rw [h.height] at room
        omega
      · exact hspare
    · exact fun _ _ hnil => absurd hnil hne

theorem Paced.retire (h : Paced config H cs all E c) : Paced config H cs all E c.retire := by
  have hpipes := retire_pipes c
  obtain ⟨hwaiting, hlength⟩ := retire_waiting c
  refine ⟨?_, ?_⟩
  · constructor <;> try simp only [hpipes.id, hpipes.coreCycle, hpipes.computePipeline,
      hpipes.exInstQueue, hwaiting]
    exacts [h.height, h.width, hlength.trans h.few, h.queue, h.order, h.preload, h.suffix, h.times,
      h.room, h.ready, h.spare]
  · rw [hpipes.exInstQueue, hpipes.computePipeline, hwaiting]
    exact h.full

theorem Paced.cycle (hH : 4 ≤ H) (h : Paced config H cs all E c) (hflight : InFlight config c)
    (hd : cycle config c = some d) :
    Paced config H cs all (E ++ (enters config c .cycle).toList) d := by
  obtain ⟨d₀, hbefore, hd⟩ := Option.bind_eq_some_iff.mp hd
  obtain rfl := Option.some.inj hd
  obtain ⟨d₁, hstages, hissue⟩ := beforeRetirement_eq_some hbefore
  rw [handlePipelines_eq] at hstages
  obtain ⟨e, he, hstages⟩ := Option.bind_eq_some_iff.mp hstages
  obtain ⟨d₂, hex, hst⟩ := Option.bind_eq_some_iff.mp hstages
  have henters : enters config c .cycle = entering config e := by
    unfold enters
    rw [he]
    rfl
  obtain ⟨hpoised, hempty⟩ := (h.beforeExecute hH hflight he).execute hH hex
  have hstored := hpoised.congr (handleStInstQueue_pipes hst) (handleStInstQueue_tiles hst)
  have hqueue : d₁.exInstQueue = [] := (handleStInstQueue_pipes hst).exInstQueue.trans hempty
  rw [henters]
  exact (hstored.issue hqueue hissue).retire

def Act.isIssue : Act → Bool
  | .issue _ => true
  | _ => false

theorem Paced.step (hH : 4 ≤ H) {a : Act} (h : Paced config H cs all E c)
    (hflight : InFlight config c) (ha : ¬ a.isIssue) (hd : step config c a = some d) :
    Paced config H cs all (E ++ (enters config c a).toList) d := by
  cases a with
  | issue op => exact absurd rfl ha
  | cycle => exact h.cycle hH hflight hd
  | popFinishedTile =>
    obtain rfl := Option.some.inj hd
    rw [show (enters config c .popFinishedTile).toList = [] from rfl, List.append_nil]
    exact h.congr ⟨rfl, rfl, rfl, rfl⟩ rfl
  | popMemoryRequest =>
    obtain ⟨⟨m, e⟩, he, rfl⟩ := Option.map_eq_some_iff.mp hd
    rw [show (enters config c .popMemoryRequest).toList = [] from rfl, List.append_nil]
    refine h.congr (popMemoryRequest_pipes he) ?_
    rw [(popMemoryRequest_eq_some he).2]
  | pushMemoryResponse response =>
    rw [show (enters config c (.pushMemoryResponse response)).toList = [] from rfl, List.append_nil]
    exact h.congr (pushMemoryResponse_pipes hd) (pushMemoryResponse_frame hd).tiles

/-- The pace is kept as long as no other tile is issued. -/
theorem Paced.run (hH : 4 ≤ H) {s : Core} {h : List (Core × Act)}
    (run : Machine.Run (Machine.partialDet (Core.step config)) s h c)
    (hs : Paced config H cs all [] s) (hflight : InFlight config s)
    (hno : ∀ p ∈ h, ¬ p.2.isIssue) : Paced config H cs all (entered config h) c := by
  have hboth : InFlight config c ∧ Paced config H cs all (entered config h) c := by
    induction run with
    | nil => exact ⟨hflight, hs⟩
    | @snoc h t a u _ step ih =>
      obtain ⟨hfl, hpaced⟩ := ih fun p hp => hno p (List.mem_append_left _ hp)
      have ha : ¬ a.isIssue := hno (t, a) (List.mem_append_right _ (List.mem_singleton_self _))
      rw [entered_snoc]
      exact ⟨hfl.step step, hpaced.step hH hfl ha step⟩
  exact hboth.2

/-! ## A single tile -/

/-- On a square array that has nothing to do, a tile of weight loads without sources is issued. -/
structure LonePreloads (config : SimulationConfig) (H cs : Nat) (c : Core) (op : Tile) : Prop where
  rows : (config.coreConfig c.id).coreHeight = H
  columns : (config.coreConfig c.id).coreWidth = H
  height : 4 ≤ H
  tiles : c.tiles = []
  pipeline : c.computePipeline = []
  queue : c.exInstQueue = []
  preload : ∀ x ∈ op.instructions, x.IsPreload cs

theorem issue_waiting (c : Core) (op : Tile) (hnil : c.tiles = []) :
    (c.issue op).tiles.length ≤ 1 ∧
      ((c.issue op).waiting = op.instructions ∨ (c.issue op).waiting = []) := by
  obtain ⟨op', hop, ⟨-, htiles, -⟩ | ⟨-, htiles, -⟩⟩ := (issue_spec c op).tiles
  · rw [hnil] at htiles
    unfold waiting
    rw [htiles]
    exact ⟨Nat.zero_le _, .inr rfl⟩
  · rw [hnil, List.nil_append] at htiles
    unfold waiting
    rw [htiles, List.flatMap_singleton]
    exact ⟨Nat.le_refl _, .inl hop.instructions⟩

theorem LonePreloads.paced {op : Tile} (h : LonePreloads config H cs c op) :
    Paced config H cs (c.issue op).waiting [] (c.issue op) := by
  have hpipes := issue_pipes c op
  have hqueue : (c.issue op).exInstQueue = [] := hpipes.exInstQueue.trans h.queue
  have hpipe : (c.issue op).computePipeline = [] := hpipes.computePipeline.trans h.pipeline
  obtain ⟨hfew, hwaiting⟩ := issue_waiting c op h.tiles
  refine ⟨⟨?_, ?_, hfew, ?_, ?_, ?_, ?_, ?_, ?_, ?_, ?_⟩, fun hne => absurd rfl hne⟩
  · rw [hpipes.id]
    exact h.rows
  · rw [hpipes.id]
    exact h.columns
  · rw [hqueue]
    exact Nat.zero_le _
  · rw [hqueue]
    rfl
  · rw [hqueue, List.nil_append]
    rcases hwaiting with hwaiting | hwaiting <;> rw [hwaiting]
    · exact h.preload
    · exact fun x hx => absurd hx List.not_mem_nil
  · rw [hpipe]
  · intro first hfirst
    cases hfirst
  · exact fun hne => absurd hqueue hne
  · intro first hfirst
    cases hfirst
  · intro first hfirst
    cases hfirst

/-- The first weight load enters the empty pipeline. -/
theorem Paced.first (hH : 4 ≤ H) (h : Paced config H cs all [] c) (hflight : InFlight config c)
    {x : Instruction} (hx : enters config c .cycle = some x) :
    x.startCycle = c.coreCycle + (2 * H - 1) := by
  obtain ⟨e, he, hx⟩ := Option.bind_eq_some_iff.mp hx
  have hpoised := h.beforeExecute hH hflight he
  obtain ⟨inst, rest, hqueue, -, -, rfl⟩ := exists_timed hx
  have hpre := hpoised.preload inst (by rw [hqueue]; exact List.mem_cons_self)
  obtain ⟨c₁, hpop, hsame⟩ := beforeExecute_pipes he
  have hclock : e.coreCycle = c.coreCycle :=
    hsame.coreCycle.trans (finishComputePipeline_pipeline hpop).2.1
  change gemmStart config e inst = _
  rw [gemmStart_of_nil hpre (List.suffix_nil.mp hpoised.suffix), hpoised.height, hclock]
  omega

/-- No instruction is late: what has not entered has its slot still ahead. -/
theorem Paced.entered_of_lt (hH : 4 ≤ H) (h : Paced config H cs all E c)
    (hflight : InFlight config c) {first : Instruction} (hfirst : E.head? = some first) {k : Nat}
    (hk : k < all.length) (hlt : first.startCycle + k * spacing H cs < c.coreCycle) :
    k < E.length := by
  by_contra hge
  have hslots : E.length * spacing H cs ≤ k * spacing H cs :=
    Nat.mul_le_mul_right _ (Nat.le_of_not_lt hge)
  have hcount := congrArg List.length h.order
  rw [List.length_map, List.length_map, List.length_append, List.length_append] at hcount
  by_cases hqueue : c.exInstQueue = []
  · have hne : E ≠ [] := by
      rintro rfl
      cases hfirst
    rw [hqueue, List.length_nil] at hcount
    rcases h.full hne hqueue with hnil | hfull
    · rw [hnil, List.length_nil] at hcount
      omega
    · cases hpipe : c.computePipeline with
      | nil =>
        rw [hpipe, List.length_nil] at hfull
        omega
      | cons x rest =>
        obtain ⟨j, hj, hfinish⟩ := h.front hpipe hfirst
        have hdue := hflight.due x (hpipe ▸ List.mem_cons_self)
        rw [hpipe, List.length_cons] at hfull
        have hlatency := latency_lt_slots hH cs hfull
        rw [hj, Nat.add_mul] at hslots
        omega
  · have hready := (h.ready first hfirst hqueue).2
    omega

/-- The run of a tile that runs alone, and the first instruction that enters in it. -/
theorem LonePreloads.run {op : Tile} (h : LonePreloads config H cs c op)
    {h₂ h₃ : List (Core × Act)} {c₁ : Core}
    (run : Machine.Run (Machine.partialDet (Core.step config)) (c.issue op)
      (h₂ ++ (c₁, .cycle) :: h₃) d)
    (hno : ∀ p ∈ h₂ ++ (c₁, .cycle) :: h₃, ¬ p.2.isIssue) (hnone : entered config h₂ = [])
    (hfirst : (enters config c₁ .cycle).isSome) :
    InFlight config d ∧ ∃ first, (entered config (h₂ ++ (c₁, .cycle) :: h₃)).head? = some first ∧
      first.startCycle = c₁.coreCycle + (2 * H - 1) := by
  have hflight : InFlight config (c.issue op) :=
    InFlight.of_nil ((issue_pipes c op).computePipeline.trans h.pipeline)
  obtain ⟨first, hfirst⟩ := Option.isSome_iff_exists.mp hfirst
  refine ⟨Machine.Run.invariant run hflight fun _ _ _ hc hs => hc.step hs, first, ?_, ?_⟩
  · unfold entered at hnone ⊢
    rw [List.flatMap_append, hnone, List.flatMap_cons, hfirst]
    rfl
  · have run₁ := run.split.1
    have hpaced₁ := Paced.run h.height run₁ h.paced hflight fun p hp =>
      hno p (List.mem_append_left _ hp)
    rw [hnone] at hpaced₁
    exact hpaced₁.first h.height
      (Machine.Run.invariant run₁ hflight fun _ _ _ hc hs => hc.step hs) hfirst

/-- The pipeline is ordered by finishing cycles at least four apart, and what is popped finishes in this
very cycle. The weight loads of a tile that runs alone enter in their order, each before its slot begins,
and the `k`-th (counted from 0) finishes `k` slots after the first. -/
structure PipelineTimed (config : SimulationConfig) (h : List (Core × Act)) (c : Core) : Prop where
  increasing : c.computePipeline.Pairwise fun x y => x.finishCycle + 4 ≤ y.finishCycle
  popped : ∀ d, c.finishComputePipeline = some d → PoppedOnTime c d
  alone : ∀ h₀ c₀ op h₁ H cs, h = h₀ ++ (c₀, .issue op) :: h₁ → LonePreloads config H cs c₀ op →
    (∀ p ∈ h₁, ¬ p.2.isIssue) →
    (entered config h₁).map Instruction.bare <+: op.instructions.map Instruction.bare ∧
    ∀ h₂ c₁ h₃, h₁ = h₂ ++ (c₁, .cycle) :: h₃ → entered config h₂ = [] →
      (enters config c₁ .cycle).isSome →
      (∀ k x, (entered config h₁)[k]? = some x →
        x.finishCycle = c₁.coreCycle + (2 * H - 1) + (2 * H - 2 + max cs 4) +
          k * max (max cs 4) H) ∧
      ∀ k < op.instructions.length,
        c₁.coreCycle + (2 * H - 1) + k * max (max cs 4) H < c.coreCycle →
          k < (entered config h₁).length

/-- A tile of two weight loads. -/
def preloadPair : Tile :=
  { preloadTile with instructions := preloadTile.instructions ++ preloadTile.instructions }

def preloadPairCalls : List Act := .issue preloadPair :: List.replicate 40 .cycle

end Core

end OnnxSim
