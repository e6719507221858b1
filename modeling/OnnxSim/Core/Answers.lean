import Mathlib.Data.List.GetD
import OnnxSim.Core.Continuity
import OnnxSim.Core.Stages
import OnnxSim.Core.Traffic
import OnnxSim.Operations.GemmOrder

/-!
# Answers to reads

In a run of `GemmWS` tiles every answer to a read finds the entry that its load has allocated, and
`Core::issue` flushes no entry that waits, exactly when no accumulator buffer is flushed before the loads
of a bias into it have been answered (`CoreSystem.answerable_iff`). Nothing in the core waits for these: a
tile whose reduction is split ends with its computations, is retired with its bias still on the way, and
a tile that begins another block takes the buffer.
-/

namespace OnnxSim

/-- A load made the request. -/
def MemoryAccess.LoadedBy (m : MemoryAccess) (tr : Instruction × List MemoryAccess) : Prop :=
  tr.1.opcode = .MOVIN ∧ tr.1.slot = m.slot ∧ m ∈ tr.2

namespace Core

variable {config : SimulationConfig} {c d e : Core} {m : MemoryAccess}

/-- Each read requested between `c` and `d` is that of a load executed between them. -/
def Fetches (c d : Core) : Prop :=
  ∃ executed accesses, d.transfers = c.transfers ++ executed ∧
    d.requestQueue = c.requestQueue ++ accesses ∧
    ∀ m ∈ accesses, m.write = false → ∃ tr ∈ executed, m.LoadedBy tr

theorem Fetches.of_eq (hqueue : d.requestQueue = c.requestQueue)
    (htransfers : d.transfers = c.transfers) : Fetches c d :=
  ⟨[], [], by rw [htransfers, List.append_nil], by rw [hqueue, List.append_nil],
    fun _ hm => absurd hm List.not_mem_nil⟩

theorem Fetches.trans (hcd : Fetches c d) (hde : Fetches d e) : Fetches c e := by
  obtain ⟨executed, accesses, htransfers, hqueue, hloads⟩ := hcd
  obtain ⟨executed', accesses', htransfers', hqueue', hloads'⟩ := hde
  refine ⟨executed ++ executed', accesses ++ accesses', ?_, ?_, fun m hm hread => ?_⟩
  · rw [htransfers', htransfers, List.append_assoc]
  · rw [hqueue', hqueue, List.append_assoc]
  · rcases List.mem_append.mp hm with hm | hm
    · obtain ⟨tr, htr, hload⟩ := hloads m hm hread
      exact ⟨tr, List.mem_append_left _ htr, hload⟩
    · obtain ⟨tr, htr, hload⟩ := hloads' m hm hread
      exact ⟨tr, List.mem_append_right _ htr, hload⟩

theorem Executed.fetches {x : Instruction} {write : Bool} (hop : write = false → x.opcode = .MOVIN)
    (h : Executed config x write c d) : Fetches c d := by
  refine ⟨_, _, h.transfers, h.requestQueue, fun m hm hread => ⟨_, List.mem_singleton_self _, ?_⟩⟩
  obtain ⟨hslot, hwrite⟩ := slot_of_accessesOf hm
  exact ⟨hop (hwrite.symm.trans hread), hslot.symm, hm⟩

theorem cycle_fetches (h : cycle config c = some d) : Fetches c d :=
  cycle_relates Fetches.trans Fetches.of_eq (fun hop hex => hex.fetches hop) h

/-- An answer to a read fills the entry that the request names. -/
theorem pushMemoryResponse_read (hread : m.write = false)
    (h : c.pushMemoryResponse m.answered = some d) :
    ∃ s, (c.buffer m.slot.accum).fill m.slot.addr m.slot.bufferId = some s ∧
      d = c.setBuffer m.slot.accum s := by
  unfold pushMemoryResponse at h
  rw [if_neg (show ¬ m.answered.request = true from Bool.false_ne_true),
    if_neg (show ¬ m.answered.write = true from Bool.eq_false_iff.mp hread)] at h
  split at h
  · rename_i haddr
    have haccum : m.slot.accum = true := decide_eq_true haddr
    obtain ⟨s, hs, h⟩ := Option.bind_eq_some_iff.mp h
    rw [haccum]
    exact ⟨s, hs, (Option.some.inj h).symm⟩
  · rename_i haddr
    have haccum : m.slot.accum = false := decide_eq_false haddr
    obtain ⟨s, hs, h⟩ := Option.bind_eq_some_iff.mp h
    rw [haccum]
    exact ⟨s, hs, (Option.some.inj h).symm⟩

theorem pushMemoryResponse_write (hwrite : m.write = true)
    (h : c.pushMemoryResponse m.answered = some d) : ∃ n, d = { c with waitingWriteReqs := n } := by
  unfold pushMemoryResponse at h
  rw [if_neg (show ¬ m.answered.request = true from Bool.false_ne_true),
    if_pos (show m.answered.write = true from hwrite)] at h
  exact ⟨_, (Option.some.inj h).symm⟩

end Core

/-! ## Tiles -/

/-- A tile of a tiling, wherever the scheduler has put it. -/
def GemmTile (t : Tile) : Prop :=
  ∃ (gemm : GemmWS) (mapping : Mapping) (tiles : List Tile),
    gemm.initializeTiles mapping = some tiles ∧ ∃ u ∈ tiles, ∃ ptr coreId fusedOpId,
      t = { u with ptr := ptr, coreId := coreId, fusedOpId := fusedOpId }

theorem GemmTile.spec {t : Tile} (h : GemmTile t) : InOrder t.instructions ∧
    t.instFinished = false ∧ ∀ k ∈ t.instructions, k.lastInst = false := by
  obtain ⟨gemm, mapping, tiles, htiles, u, hu, ptr, coreId, fusedOpId, rfl⟩ := h
  obtain ⟨loop, htile⟩ := GemmWS.exists_tileOf htiles u hu
  refine ⟨GemmWS.inOrder htile.instructions, ?_, GemmWS.unmarked htile.instructions⟩
  obtain ⟨coreId', hfields⟩ := htile.fields
  show u.instFinished = false
  rw [hfields]
  rfl

namespace CoreSystem

variable {config : SimulationConfig} {s t : CoreSystem} {a : Act} {m : MemoryAccess}

/-- A tile that is issued is one of `GemmWS`. -/
def IssuesGemm : Act → Prop
  | .issue op => GemmTile op
  | _ => True

/-- The accumulator buffer that `Core::issue` flushes has no load of a bias that waits for its answer. -/
def BiasAnswered (s : CoreSystem) : Act → Prop
  | .issue op => ∀ m ∈ s.reads, m.slot.accum = true → s.core.flushes op true m.slot.bufferId = false
  | _ => True

instance (s : CoreSystem) : (a : Act) → Decidable (BiasAnswered s a)
  | .issue op => inferInstanceAs (Decidable (∀ m ∈ s.reads, m.slot.accum = true →
      s.core.flushes op true m.slot.bufferId = false))
  | .cycle | .popFinishedTile | .popMemoryRequest | .respond _ => isTrue trivial

theorem reads_eq (s : CoreSystem) : s.reads = s.core.unanswered s.memory := rfl

theorem issue_eq_some {op : Tile} (h : step config s (.issue op) = some t) :
    s.core.canIssue ∧ (∀ u ∈ s.core.tiles, u.ptr ≠ op.ptr) ∧ t = { s with
      core := s.core.issue op
      flushed := fun accum b =>
        if s.core.flushes op accum b then s.core.transfers.length else s.flushed accum b } := by
  unfold step at h
  dsimp only at h
  split at h
  · rename_i hguard
    obtain ⟨hissue, hapart⟩ := Bool.and_eq_true_iff.mp hguard
    refine ⟨hissue, fun u hu => ?_, (Option.some.inj h).symm⟩
    simpa using List.all_eq_true.mp hapart u (List.mem_append_left _ hu)
  · cases h

/-! ## The invariant -/

/-- The core can execute what it holds, every fill that is outstanding has its shelter, and every read
comes from a load executed since its buffer was flushed. -/
structure Guarded (config : SimulationConfig) (s : CoreSystem) : Prop where
  sound : Core.Sound config s.core
  sheltered : Core.Sheltered s.memory s.core
  flushed : ∀ accum b, s.flushed accum b ≤ s.core.transfers.length
  loaded : ∀ m ∈ s.reads, ∃ tr ∈ s.core.transfers.drop (s.flushed m.slot.accum m.slot.bufferId),
    m.LoadedBy tr

theorem Guarded.answerable (h : s.Guarded config) : s.Answerable := by
  intro m hm
  refine ⟨h.sheltered.counted.waits ?_, h.loaded m hm⟩
  exact List.mem_append_left _ (List.mem_map_of_mem hm)

/-- What waits in a buffer that is flushed waits for a bias. -/
theorem Guarded.flushesSettled (h : s.Guarded config) (hstep : step config s a = some t)
    (hbias : s.BiasAnswered a) : s.FlushesSettled a := by
  cases a with
  | issue op =>
    intro slot e hflush he
    by_contra hwaits
    obtain ⟨hissue, -⟩ := issue_eq_some hstep
    have hslot : slot ∈ s.core.outstanding s.memory := by
      rw [← List.count_pos_iff, ← (h.sheltered.counted.of_some he).1]
      exact Nat.pos_of_ne_zero hwaits
    obtain ⟨m, hm, rfl, haccum⟩ := h.sheltered.not_flushed hissue hslot hflush
    have hkept := hbias m hm haccum
    rw [haccum, hkept] at hflush
    cases hflush
  | _ => trivial

/-- Requests move or are answered, and nothing is executed. -/
theorem Guarded.loaded_of_subset (h : s.Guarded config) (hflushed : t.flushed = s.flushed)
    (htransfers : t.core.transfers = s.core.transfers) (hreads : ∀ m ∈ t.reads, m ∈ s.reads) :
    (∀ accum b, t.flushed accum b ≤ t.core.transfers.length) ∧
      ∀ m ∈ t.reads, ∃ tr ∈ t.core.transfers.drop (t.flushed m.slot.accum m.slot.bufferId),
        m.LoadedBy tr := by
  rw [hflushed, htransfers]
  exact ⟨h.flushed, fun m hm => h.loaded m (hreads m hm)⟩

theorem Guarded.cycle (h : s.Guarded config) (hstep : step config s .cycle = some t) :
    t.Guarded config := by
  obtain ⟨c, hc, hstep⟩ := Option.bind_eq_some_iff.mp hstep
  obtain rfl := Option.some.inj hstep
  obtain ⟨executed, accesses, htransfers, hqueue, hloads⟩ := Core.cycle_fetches hc
  have hsince : ∀ accum b, c.transfers.drop (s.flushed accum b) =
      s.core.transfers.drop (s.flushed accum b) ++ executed := by
    intro accum b
    rw [htransfers, List.drop_append_of_le_length (h.flushed accum b)]
  refine ⟨h.sound.cycle hc, h.sheltered.cycle h.sound hc, fun accum b => ?_, fun m hm => ?_⟩
  · show s.flushed accum b ≤ c.transfers.length
    rw [htransfers, List.length_append]
    exact (h.flushed accum b).trans (Nat.le_add_right _ _)
  · show ∃ tr ∈ c.transfers.drop (s.flushed m.slot.accum m.slot.bufferId), m.LoadedBy tr
    rw [hsince]
    obtain ⟨hm, hread⟩ := List.mem_filter.mp hm
    have hm : m ∈ c.requestQueue ++ s.memory := hm
    rw [hqueue, List.append_assoc, List.mem_append, List.mem_append] at hm
    have hold : m ∈ s.core.requestQueue ++ s.memory → ∃ tr ∈
        s.core.transfers.drop (s.flushed m.slot.accum m.slot.bufferId) ++ executed, m.LoadedBy tr := by
      intro hm
      obtain ⟨tr, htr, hload⟩ := h.loaded m (List.mem_filter.mpr ⟨hm, hread⟩)
      exact ⟨tr, List.mem_append_left _ htr, hload⟩
    rcases hm with hm | hm | hm
    · exact hold (List.mem_append_left _ hm)
    · obtain ⟨tr, htr, hload⟩ := hloads m hm (by simpa using hread)
      exact ⟨tr, List.mem_append_right _ htr, hload⟩
    · exact hold (List.mem_append_right _ hm)

theorem Guarded.issue {op : Tile} (h : s.Guarded config) (hgemm : GemmTile op)
    (hbias : s.BiasAnswered (.issue op)) (hstep : step config s (.issue op) = some t) :
    t.Guarded config := by
  obtain ⟨hissue, hapart, rfl⟩ := issue_eq_some hstep
  obtain ⟨horder, hunfinished, hunmarked⟩ := hgemm.spec
  have hspec := Core.issue_spec s.core op
  have hkept : ∀ m ∈ s.reads, s.core.flushes op m.slot.accum m.slot.bufferId = false := by
    intro m hm
    rw [← Bool.not_eq_true]
    intro hflush
    have hslot : m.slot ∈ s.core.outstanding s.memory :=
      List.mem_append_left _ (List.mem_map_of_mem hm)
    obtain ⟨-, -, -, haccum⟩ := h.sheltered.not_flushed hissue hslot hflush
    rw [haccum, hbias m hm haccum] at hflush
    cases hflush
  refine ⟨h.sound.moves (Core.issue_moves ⟨hissue, hunfinished, hunmarked, hapart⟩),
    h.sheltered.issue hissue horder fun m hm haccum => ?_, fun accum b => ?_, fun m hm => ?_⟩
  · rw [hbias m hm haccum]
    exact Bool.false_ne_true
  · show (if s.core.flushes op accum b then _ else _) ≤ (s.core.issue op).transfers.length
    rw [hspec.transfers]
    split
    · exact Nat.le_refl _
    · exact h.flushed accum b
  · have hm : m ∈ s.reads := by
      have hreads : ((s.core.issue op).requestQueue ++ s.memory).filter (!·.write) = s.reads := by
        rw [hspec.requestQueue]
        rfl
      exact hreads ▸ hm
    show ∃ tr ∈ (s.core.issue op).transfers.drop
      (if s.core.flushes op m.slot.accum m.slot.bufferId then _ else _), m.LoadedBy tr
    rw [hspec.transfers, hkept m hm, if_neg Bool.false_ne_true]
    exact h.loaded m hm

theorem Guarded.popMemoryRequest (h : s.Guarded config)
    (hstep : step config s .popMemoryRequest = some t) : t.Guarded config := by
  obtain ⟨⟨m, c⟩, hc, hstep⟩ := Option.bind_eq_some_iff.mp hstep
  obtain rfl := Option.some.inj hstep
  obtain ⟨hqueue, hcore⟩ := Core.popMemoryRequest_eq_some hc
  have hreads : (s.core.unanswered s.memory).Perm (c.unanswered (s.memory ++ [m])) := by
    unfold Core.unanswered
    rw [hqueue, ← List.append_assoc]
    exact (List.perm_append_singleton m (c.requestQueue ++ s.memory)).symm.filter _
  obtain ⟨hflushed, hloaded⟩ := h.loaded_of_subset (t := ⟨c, s.memory ++ [m], s.flushed⟩) rfl
    (by rw [hcore]) fun m' hm' => hreads.symm.subset hm'
  refine ⟨h.sound.moves ?_, h.sheltered.moved ?_ ?_ ?_ ?_ ?_ ?_ ?_ ?_ hreads, hflushed, hloaded⟩
  · rw [hcore]
    exact Core.Moves.of_eq rfl rfl rfl rfl rfl rfl rfl rfl rfl
  all_goals rw [hcore]

theorem Guarded.popFinishedTile (h : s.Guarded config)
    (hstep : step config s .popFinishedTile = some t) : t.Guarded config := by
  obtain rfl := Option.some.inj hstep
  obtain ⟨hflushed, hloaded⟩ := h.loaded_of_subset
    (t := { s with core := s.core.popFinishedTile.2 }) rfl rfl fun m hm => hm
  exact ⟨h.sound.moves (Core.Moves.of_eq rfl rfl rfl rfl rfl rfl rfl rfl rfl),
    h.sheltered.moved rfl rfl rfl rfl rfl rfl rfl rfl (.refl _), hflushed, hloaded⟩

theorem Guarded.respond {i : Nat} (h : s.Guarded config)
    (hstep : step config s (.respond i) = some t) : t.Guarded config := by
  obtain ⟨m, hm, hstep⟩ := Option.bind_eq_some_iff.mp hstep
  obtain ⟨c, hc, hstep⟩ := Option.bind_eq_some_iff.mp hstep
  obtain rfl := Option.some.inj hstep
  have hsplit : (s.core.requestQueue ++ s.memory).Perm
      (m :: (s.core.requestQueue ++ s.memory.eraseIdx i)) := by
    obtain ⟨hi, rfl⟩ := List.getElem?_eq_some_iff.mp hm
    exact ((List.getElem_cons_eraseIdx_perm hi).symm.append_left _).trans List.perm_middle
  cases hwrite : m.write with
  | true =>
    obtain ⟨n, rfl⟩ := Core.pushMemoryResponse_write hwrite hc
    have hreads : (s.core.unanswered s.memory).Perm
        (s.core.unanswered (s.memory.eraseIdx i)) := by
      have hfilter := hsplit.filter (!·.write)
      rwa [List.filter_cons_of_neg (by simp [hwrite])] at hfilter
    obtain ⟨hflushed, hloaded⟩ := h.loaded_of_subset
      (t := ⟨{ s.core with waitingWriteReqs := n }, s.memory.eraseIdx i, s.flushed⟩) rfl rfl
      fun m' hm' => hreads.symm.subset hm'
    exact ⟨h.sound.moves (Core.Moves.of_eq rfl rfl rfl rfl rfl rfl rfl rfl rfl),
      h.sheltered.moved rfl rfl rfl rfl rfl rfl rfl rfl hreads, hflushed, hloaded⟩
  | false =>
    obtain ⟨buffer, hfill, rfl⟩ := Core.pushMemoryResponse_read hwrite hc
    have hreads : (s.core.unanswered s.memory).Perm
        (m :: s.core.unanswered (s.memory.eraseIdx i)) := by
      have hfilter := hsplit.filter (!·.write)
      rwa [List.filter_cons_of_pos (by simp [hwrite])] at hfilter
    have hsheltered := h.sheltered.answered hfill hreads
    have hmoves := Core.Moves.fill hfill
    obtain ⟨hflushed, hloaded⟩ := h.loaded_of_subset
      (t := ⟨s.core.setBuffer m.slot.accum buffer, s.memory.eraseIdx i, s.flushed⟩) rfl
      (by rw [Core.setBuffer_eq]) fun m' hm' => by
        rw [Core.setBuffer_eq] at hm'
        exact hreads.symm.subset (List.mem_cons_of_mem _ hm')
    exact ⟨h.sound.moves hmoves, hsheltered, hflushed, hloaded⟩

theorem Guarded.step (h : s.Guarded config) (hgemm : IssuesGemm a) (hbias : s.BiasAnswered a)
    (hstep : step config s a = some t) : t.Guarded config := by
  cases a with
  | issue op => exact h.issue hgemm hbias hstep
  | cycle => exact h.cycle hstep
  | popFinishedTile => exact h.popFinishedTile hstep
  | popMemoryRequest => exact h.popMemoryRequest hstep
  | respond i => exact h.respond hstep

theorem init_guarded (config : SimulationConfig) (id layerId fusedOpId : Nat) :
    (init config id layerId fusedOpId).Guarded config := by
  refine ⟨Core.Idle.sound ⟨rfl, rfl, rfl⟩ ⟨List.nodup_nil, ?_, ?_, ?_⟩, ?_, ?_, ?_⟩
  · exact fun t ht => absurd ht List.not_mem_nil
  · exact fun t ht => absurd ht List.not_mem_nil
  · exact fun o ho => absurd ho List.not_mem_nil
  · refine ⟨?_, rfl, ?_, ?_, trivial, Scoreboard.counted_nil fun slot => ?_, ?_⟩
    · exact fun t ht => absurd ht List.not_mem_nil
    · exact fun x hx => absurd hx List.not_mem_nil
    · exact fun l hl => absurd hl List.not_mem_nil
    · unfold Core.entry Core.buffer
      cases slot.accum <;> rfl
    · exact fun m hm => absurd hm List.not_mem_nil
  · exact fun _ _ => Nat.le_refl _
  · exact fun m hm => absurd hm List.not_mem_nil

/-! ## Runs -/

variable {id layerId fusedOpId : Nat} {h : List (CoreSystem × Act)}

theorem Run.guarded (run : Run config id layerId fusedOpId h s)
    (hgemm : Machine.EachStep (fun _ a => IssuesGemm a) h) (hbias : Machine.EachStep BiasAnswered h) :
    Machine.Always (Guarded config) h s := by
  have hboth : Machine.EachStep (fun s a => IssuesGemm a ∧ BiasAnswered s a) h :=
    fun p hp => ⟨hgemm p hp, hbias p hp⟩
  exact Machine.Run.always_of_eachStep run (init_guarded config id layerId fusedOpId)
    (fun _ _ _ hs ha hstep => hs.step ha.1 ha.2 hstep) hboth

/-- In a run of `GemmWS` tiles, every read finds the entry that waits for it and no flush loses one,
exactly when each accumulator buffer that is flushed has had the answers to its loads of a bias. -/
theorem answerable_iff (run : Run config id layerId fusedOpId h s)
    (hgemm : Machine.EachStep (fun _ a => IssuesGemm a) h) :
    Machine.Always Answerable h s ∧ Machine.EachStep FlushesSettled h ↔
      Machine.EachStep BiasAnswered h := by
  constructor
  · rintro ⟨halways, hsettled⟩ ⟨u, a⟩ hp
    cases a with
    | issue op =>
      intro m hm haccum
      rw [← Bool.not_eq_true]
      intro hflush
      obtain ⟨e, he, -, hwaits⟩ := (halways.1 _ hp m hm).waits
      have hzero := hsettled _ hp m.slot e (haccum ▸ hflush) he
      omega
    | _ => trivial
  · intro hbias
    have hguarded := Run.guarded run hgemm hbias
    refine ⟨⟨fun p hp => (hguarded.1 p hp).answerable, hguarded.2.answerable⟩, fun p hp => ?_⟩
    obtain ⟨-, u, -, hstep⟩ := run.of_mem hp
    exact (hguarded.1 p hp).flushesSettled hstep (hbias p hp)

/-- Two output blocks of one element, with a bias, and the reduction in two tiles. -/
def biasGemm : GemmWS where
  config := Core.smallArray
  id := 1
  inputs := [0, 256, 512]
  outputs := [768]
  inputShape := [1, 2]
  weightShape := [2, 2]
  outputShape := [1, 2]

def biasMapping : Mapping where
  totalLoop := { C := 2, M := 2 }
  tileInLoop := {}
  tileOutLoop := { C := 2, M := 2 }

def biasTiles : List Tile := (biasGemm.initializeTiles biasMapping).getD []

theorem biasTiles_eq : biasGemm.initializeTiles biasMapping = some biasTiles := by
  unfold biasTiles
  decide +kernel

/-- The first two tiles reduce one block, the next two the other. -/
def biasTile (i : Nat) : Tile := { biasTiles.getD i {} with ptr := i }

theorem biasTile_gemm {i : Nat} (hi : i < biasTiles.length) : GemmTile (biasTile i) := by
  refine ⟨biasGemm, biasMapping, biasTiles, biasTiles_eq, biasTiles.getD i {}, ?_, i, _, _, rfl⟩
  rw [List.getD_eq_getElem _ _ hi]
  exact List.getElem_mem hi

theorem biasTiles_length : biasTiles.length = 4 := by decide +kernel

/-- Both tiles of a block are issued, and the answers come last to first. -/
def chainCalls : List Act :=
  .issue (biasTile 0) :: List.replicate 4 .cycle ++ .issue (biasTile 1) ::
    List.replicate 3 .popMemoryRequest ++ [.respond 2, .cycle, .respond 1, .respond 0]

theorem chainCalls_gemm : ∀ a ∈ chainCalls, IssuesGemm a := by
  intro a ha
  cases a with
  | issue op =>
    obtain rfl | rfl : op = biasTile 0 ∨ op = biasTile 1 := by simpa [chainCalls] using ha
    · exact biasTile_gemm (biasTiles_length ▸ by decide)
    · exact biasTile_gemm (biasTiles_length ▸ by decide)
  | _ => trivial

theorem answerable_iff_chain : ∃ (h : List (CoreSystem × Act)) (s : CoreSystem),
    h.map Prod.snd = chainCalls ∧ Run Core.smallArray 0 0 0 h s ∧ Machine.Always Answerable h s ∧
      Machine.EachStep FlushesSettled h := by
  have hsome : (chainCalls.foldlM
      (fun s a => if BiasAnswered s a then step Core.smallArray s a else none)
      (init Core.smallArray 0 0 0)).isSome := by
    decide +kernel
  obtain ⟨s, hs⟩ := Option.isSome_iff_exists.mp hsome
  obtain ⟨h, hacts, run, hbias⟩ := Machine.Run.of_guarded hs
  have run' : Run Core.smallArray 0 0 0 h s := run
  refine ⟨h, s, hacts, run', (answerable_iff run' fun p hp => ?_).mpr hbias⟩
  exact chainCalls_gemm p.2 (hacts ▸ List.mem_map_of_mem hp)

/-! ## A bias that comes too late -/

/-- A core that has had nothing to do for `n` cycles. -/
def idleFor (n : Nat) : CoreSystem where
  core := Core.idleFor n

theorem idleFor_run (n : Nat) : ∃ h : List (CoreSystem × Act),
    (∀ p ∈ h, p.2 = .cycle) ∧ Run Core.smallArray 0 0 0 h (idleFor n) := by
  induction n with
  | zero => exact ⟨[], fun p hp => absurd hp List.not_mem_nil, .nil⟩
  | succ n ih =>
    obtain ⟨h, hcycles, run⟩ := ih
    have hstep : step Core.smallArray (idleFor n) .cycle = some (idleFor (n + 1)) := rfl
    have run' : Run Core.smallArray 0 0 0 (h ++ [(idleFor n, .cycle)]) (idleFor (n + 1)) :=
      Machine.Run.snoc run hstep
    refine ⟨h ++ [(idleFor n, .cycle)], fun p hp => ?_, run'⟩
    rcases List.mem_append.mp hp with hp | hp
    · exact hcycles p hp
    · obtain rfl := List.mem_singleton.mp hp
      rfl

/-- The weights and the activations of the first block come, and its bias does not. In cycle 8000 the
tile is retired, and the first tile of the other block is issued. -/
def lateCalls : List Act :=
  .issue (biasTile 0) :: List.replicate 4 .cycle ++ List.replicate 3 .popMemoryRequest ++
    [.respond 1, .respond 1] ++ List.replicate 46 .cycle ++ [.issue (biasTile 2)]

theorem lateCalls_gemm : ∀ a ∈ lateCalls, IssuesGemm a := by
  intro a ha
  cases a with
  | issue op =>
    obtain rfl | rfl : op = biasTile 0 ∨ op = biasTile 2 := by simpa [lateCalls] using ha
    · exact biasTile_gemm (biasTiles_length ▸ by decide)
    · exact biasTile_gemm (biasTiles_length ▸ by decide)
  | _ => trivial

theorem not_answerable : ¬ ∀ (config : SimulationConfig) (id layerId fusedOpId : Nat)
    (h : List (CoreSystem × Act)) (s : CoreSystem), Run config id layerId fusedOpId h s →
    Machine.EachStep (fun _ a => IssuesGemm a) h →
      Machine.Always Answerable h s ∧ Machine.EachStep FlushesSettled h := by
  intro hall
  obtain ⟨h₁, hidle, run₁⟩ := idleFor_run 7950
  have hlost : (lateCalls.foldlM (step Core.smallArray) (idleFor 7950)).map (fun s =>
      s.reads.any fun m => (s.core.entry m.slot).isNone) = some true := by
    decide +kernel
  obtain ⟨s, hs, hlost⟩ := Option.map_eq_some_iff.mp hlost
  obtain ⟨h₂, hacts, run₂⟩ := Machine.Run.of_foldlM hs
  have hgemm : Machine.EachStep (fun _ a => IssuesGemm a) (h₁ ++ h₂) := by
    intro p hp
    rcases List.mem_append.mp hp with hp | hp
    · rw [hidle p hp]
      trivial
    · exact lateCalls_gemm p.2 (hacts ▸ List.mem_map_of_mem hp)
  have run : Run Core.smallArray 0 0 0 (h₁ ++ h₂) s := run₁.append run₂
  obtain ⟨m, hm, hnone⟩ := List.any_eq_true.mp hlost
  obtain ⟨e, he, -⟩ := ((hall _ _ _ _ _ _ run hgemm).1.2 m hm).waits
  rw [he] at hnone
  cases hnone

end CoreSystem

end OnnxSim
