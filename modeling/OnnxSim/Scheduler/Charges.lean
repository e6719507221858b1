import OnnxSim.Scheduler.Loads

/-!
# The loads of partitions

`issue_tile_per_core` for a partition takes the least loaded core of all, adds the position of the
polling core in its partition, charges the core of that number, and gives the tile to the core of the
partition that the number leads to modulo its size. The core charged is the core that receives the tile
exactly when the polling core is the first of its partition and the least loaded core is where its
own number leads (`IssueCall.rightly_iff`), and runs keep the loads right exactly when each of their
calls that counts a tile is of this kind (`System.charges_right_iff`).
-/

namespace OnnxSim

namespace Scheduler

variable {config : SimulationConfig} {s s' : Scheduler}

/-- The entries of `core_pq` are those of the cores. -/
def Entries (config : SimulationConfig) (s : Scheduler) : Prop :=
  (s.corePq.map (·.coreId)).Perm (List.range config.numCores)

/-- Each entry of `core_pq` has what is counted for its core. -/
def EntriesAgree (s : Scheduler) : Prop := ∀ load ∈ s.corePq, load = s.loadOf load.coreId

theorem LoadsAgree.entries (h : LoadsAgree config s) : Entries config s := by
  have hmap := h.map (·.coreId)
  rwa [List.map_map, List.map_id''] at hmap
  exact fun core => rfl

theorem LoadsAgree.entriesAgree (h : LoadsAgree config s) : s.EntriesAgree := by
  intro load hload
  obtain ⟨core, -, rfl⟩ := List.mem_map.mp (h.subset hload)
  rfl

theorem Entries.loadsAgree (h : Entries config s) (hagree : s.EntriesAgree) :
    LoadsAgree config s := by
  have hmap : (s.corePq.map (·.coreId)).map s.loadOf = s.corePq := by
    rw [List.map_map]
    exact (List.map_congr_left fun load hload => (hagree load hload).symm).trans (List.map_id _)
  unfold LoadsAgree
  rw [← hmap]
  exact h.map s.loadOf

theorem Entries.gives (h : Entries config s) {offset : Nat} {tile : Tile} {top : CoreLoad}
    (hgives : Gives config offset s tile top s') : Entries config s' := by
  have hid : (if tile.skip then top else
      { s'.loadOf (top.coreId + offset) with coreId := top.coreId }).coreId = top.coreId := by
    split <;> rfl
  unfold Entries
  rw [hgives.corePq, List.map_append, List.map_singleton, hid]
  refine (List.perm_append_singleton _ _).trans (.trans ?_ h)
  exact ((List.perm_cons_erase (topLoad_eq_some hgives.least).1).map (·.coreId)).symm

end Scheduler

namespace IssueCall

open Scheduler

variable {config : SimulationConfig} {call : IssueCall} {s s' u : Scheduler} {tile t : Tile}

/-- The call from `s` issues `tile` in state `u`. -/
inductive Issued (config : SimulationConfig) (call : IssueCall) : Scheduler → Scheduler → Tile → Prop
  | front {s : Scheduler} {tile : Tile} {rest : List Tile}
      (hfront : s.executableTileQueue call.partitionId = tile :: rest) (hbar : tile.status ≠ .BAR) :
      Issued config call s s tile
  | later {s s' u : Scheduler} {tile t : Tile} {rest : List Tile}
      (hfront : s.executableTileQueue call.partitionId = tile :: rest) (hbar : tile.status ≠ .BAR)
      (hissue : issueTile config call.remap call.offset call.partitionId s tile = some s')
      (hlater : Issued config call s' u t) : Issued config call s u t

/-- A counted tile that finds `top` the least loaded core: the index is that of a core, the core that
is charged receives the tile, and its entry is the one that is updated. -/
structure Charged (config : SimulationConfig) (call : IssueCall) (top : CoreLoad) : Prop where
  inBounds : top.coreId + call.offset < config.numCores
  receives : call.core top = top.coreId + call.offset
  entry : call.core top = top.coreId

/-- The call charges the cores that receive the tiles, and leaves `core_pq` with what is counted. -/
structure Right (config : SimulationConfig) (call : IssueCall) (s : Scheduler) : Prop where
  charged : ∀ u tile top, Issued config call s u tile → tile.skip = false →
    topLoad u.corePq = some top → Charged config call top
  agree : ∀ s', call.issue config s = some s' → s'.EntriesAgree

/-- `core_pq` after `tile` has been taken by its least core. -/
def afterTile (pq : List CoreLoad) (top : CoreLoad) (tile : Tile) : List CoreLoad :=
  pq.erase top ++ [if tile.skip then top else
    { top with tileCount := top.tileCount + 1, insCount := top.insCount + tile.validIns }]

/-- Up to a barrier, each tile that counts is issued by the first core of a partition and finds a
least loaded core that its own number leads to. -/
def Fits (call : IssueCall) : List CoreLoad → List Tile → Prop
  | _, [] => True
  | pq, tile :: tiles => tile.status = .BAR ∨ ∀ top, topLoad pq = some top →
    (tile.skip = false → call.offset = 0 ∧ call.remap top.coreId = top.coreId) ∧
      Fits call (afterTile pq top tile) tiles

/-- The condition for a call from `s`. -/
def FitsIn (call : IssueCall) (s : Scheduler) : Prop :=
  call.Fits s.corePq (s.executableTileQueue call.partitionId)

/-! ## One call -/

theorem charged_iff (h : LoadsAgree config s) {top : CoreLoad} (htop : topLoad s.corePq = some top) :
    Charged config call top ↔ call.offset = 0 ∧ call.remap top.coreId = top.coreId := by
  have hcore := (h.top htop).2
  constructor
  · rintro ⟨-, hreceives, hentry⟩
    have hzero : call.offset = 0 := by omega
    refine ⟨hzero, ?_⟩
    rwa [core, hzero] at hentry
  · rintro ⟨hzero, hremap⟩
    have hsame : call.core top = top.coreId := by
      rw [core, hzero]
      exact hremap
    exact ⟨by omega, by omega, hsame⟩

/-- A tile that may be charged is issued. -/
theorem exists_issueTile {top : CoreLoad} (htop : topLoad s.corePq = some top)
    (hcharged : tile.skip = false → Charged config call top) :
    ∃ s', issueTile config call.remap call.offset call.partitionId s tile = some s' := by
  unfold issueTile countTile
  rw [htop]
  cases hskip : tile.skip with
  | true => exact ⟨_, rfl⟩
  | false =>
    have hlt := (hcharged hskip).inBounds
    simp [hlt]

/-- The load queue after an iteration that charges the right core. -/
theorem corePq_eq (h : LoadsAgree config s) {top : CoreLoad}
    (hgives : Gives config call.offset s tile top s')
    (hzero : tile.skip = false → call.offset = 0) : s'.corePq = afterTile s.corePq top tile := by
  rw [hgives.corePq]
  unfold afterTile
  congr 2
  cases hskip : tile.skip with
  | true => rfl
  | false =>
    have hcount := hgives.tileNum (top.coreId + call.offset)
    have hins := hgives.insNum (top.coreId + call.offset)
    have hentry := (h.top hgives.least).1
    rw [hzero hskip] at hcount hins ⊢
    simp only [Nat.add_zero, hskip, and_self, if_true] at hcount hins
    simp only [loadOf, Nat.add_zero, hcount, hins, Bool.false_eq_true, if_false]
    rw [hentry]
    rfl

theorem charged_all_iff (h : LoadsAgree config s) {tiles : List Tile}
    (hqueue : s.executableTileQueue call.partitionId = tiles) :
    (∀ u tile top, Issued config call s u tile → tile.skip = false →
      topLoad u.corePq = some top → Charged config call top) ↔ call.Fits s.corePq tiles := by
  induction tiles generalizing s with
  | nil =>
    refine ⟨fun _ => trivial, fun _ u tile top hissued => ?_⟩
    cases hissued with
    | front hfront => simp [hqueue] at hfront
    | later hfront => simp [hqueue] at hfront
  | cons tile tiles ih =>
    -- the state after this tile
    have hnext : ∀ top s', topLoad s.corePq = some top →
        (tile.skip = false → call.offset = 0) →
        issueTile config call.remap call.offset call.partitionId s tile = some s' →
        LoadsAgree config s' ∧ s'.corePq = afterTile s.corePq top tile ∧
          s'.executableTileQueue call.partitionId = tiles := by
      intro top s' htop hzero hs
      obtain ⟨top', hgives, -, hqueues, -⟩ := exists_gives hs
      obtain rfl := Option.some.inj (htop.symm.trans hgives.least)
      refine ⟨h.gives hgives hzero, corePq_eq h hgives hzero, ?_⟩
      rw [hqueues, Function.update_self, hqueue, List.tail_cons]
    constructor
    · intro hall
      refine or_iff_not_imp_left.mpr fun hbar top htop => ?_
      have hcharged : tile.skip = false → Charged config call top :=
        fun hskip => hall s tile top (.front hqueue hbar) hskip htop
      have hfits := fun hskip => (charged_iff h htop).mp (hcharged hskip)
      obtain ⟨s', hs⟩ := exists_issueTile htop hcharged
      obtain ⟨hagree, hpq, hrest⟩ := hnext top s' htop (fun hskip => (hfits hskip).1) hs
      refine ⟨hfits, hpq ▸ (ih hagree hrest).mp fun u t e hissued => ?_⟩
      exact hall u t e (.later hqueue hbar hs hissued)
    · intro hfits u t e hissued
      cases hissued with
      | front hfront hbar =>
        obtain ⟨rfl, -⟩ := List.cons.inj (hqueue.symm.trans hfront)
        intro hskip htop
        exact (charged_iff h htop).mpr (((hfits.resolve_left hbar) e htop).1 hskip)
      | later hfront hbar hs hlater =>
        obtain ⟨rfl, -⟩ := List.cons.inj (hqueue.symm.trans hfront)
        obtain ⟨top, hgives, -⟩ := exists_gives hs
        obtain ⟨hhere, hthere⟩ := hfits.resolve_left hbar top hgives.least
        obtain ⟨hagree, hpq, hrest⟩ := hnext top _ hgives.least (fun hskip => (hhere hskip).1) hs
        exact (ih hagree hrest).mpr (hpq ▸ hthere) u t e hlater

theorem issueLoop_entries {n : Nat} (h : Entries config s)
    (hs : issueLoop config call.remap call.offset call.partitionId n s = some s') :
    Entries config s' := by
  induction n generalizing s with
  | zero =>
    obtain rfl := Option.some.inj hs
    exact h
  | succ n ih =>
    unfold issueLoop at hs
    split at hs
    · obtain rfl := Option.some.inj hs
      exact h
    · split at hs
      · obtain rfl := Option.some.inj hs
        exact h
      · obtain ⟨u, hu, hs⟩ := Option.bind_eq_some_iff.mp hs
        obtain ⟨top, hgives, -⟩ := exists_gives hu
        exact ih (h.gives hgives) hs

theorem issueLoop_loadsAgree {n : Nat} (h : LoadsAgree config s)
    (hall : ∀ u tile top, Issued config call s u tile → tile.skip = false →
      topLoad u.corePq = some top → Charged config call top)
    (hs : issueLoop config call.remap call.offset call.partitionId n s = some s') :
    LoadsAgree config s' := by
  induction n generalizing s with
  | zero =>
    obtain rfl := Option.some.inj hs
    exact h
  | succ n ih =>
    unfold issueLoop at hs
    split at hs
    · obtain rfl := Option.some.inj hs
      exact h
    · rename_i tile rest hqueue
      split at hs
      · obtain rfl := Option.some.inj hs
        exact h
      · rename_i hbar
        obtain ⟨u, hu, hs⟩ := Option.bind_eq_some_iff.mp hs
        obtain ⟨top, hgives, -⟩ := exists_gives hu
        have hzero : tile.skip = false → call.offset = 0 := fun hskip =>
          ((charged_iff h hgives.least).mp (hall s tile top (.front hqueue hbar) hskip
            hgives.least)).1
        refine ih (h.gives hgives hzero) (fun v t e hissued => ?_) hs
        exact hall v t e (.later hqueue hbar hu hissued)

/-- The call is its loop. -/
theorem issue_eq_some (hs : call.issue config s = some s') :
    ∃ n, issueLoop config call.remap call.offset call.partitionId n s = some s' := by
  cases call with
  | all => exact ⟨_, hs⟩
  | within allowedCpu offset partitionId =>
    simp only [issue, issueTilePerCoreIn] at hs
    split at hs
    · cases hs
    · exact ⟨_, hs⟩

/-- A call that fits leaves the loads as they should be. -/
theorem FitsIn.loadsAgree (hfits : call.FitsIn s) (h : LoadsAgree config s)
    (hs : call.issue config s = some s') : LoadsAgree config s' := by
  obtain ⟨n, hloop⟩ := issue_eq_some hs
  exact issueLoop_loadsAgree h ((charged_all_iff h rfl).mpr hfits) hloop

theorem Right.loadsAgree (hright : Right config call s) (h : LoadsAgree config s)
    (hs : call.issue config s = some s') : LoadsAgree config s' := by
  obtain ⟨n, hloop⟩ := issue_eq_some hs
  exact (issueLoop_entries h.entries hloop).loadsAgree (hright.agree s' hs)

/-- A call that finds the loads as they should be charges the right cores exactly when it fits. -/
theorem right_iff (h : LoadsAgree config s) : Right config call s ↔ call.FitsIn s :=
  ⟨fun hright => (charged_all_iff h rfl).mp hright.charged,
    fun hfits => ⟨(charged_all_iff h rfl).mpr hfits, fun _ hs => (hfits.loadsAgree h hs).entriesAgree⟩⟩

end IssueCall

/-! ## The calls of a step -/

namespace Scheduler

variable {config : SimulationConfig} {type : SchedulerType} {s s' : Scheduler}

/-- The call for the partition of core `core`, which polls. -/
def callOf (config : SimulationConfig) (core : Nat) : IssueCall :=
  .within (config.partitionMap (config.partitionOf core))
    ((config.partitionMap (config.partitionOf core)).idxOf core) (config.partitionOf core)

/-- The step of `DedicatedCPUScheduler::refresh_status` for core `core` makes its call in state `u`. -/
inductive CoreCalls (config : SimulationConfig) (s : Scheduler) (core : Nat) : Scheduler → Prop
  | start {i requestId : Nat} {op : Operation} {t : Scheduler}
      (hcore : s.coreExecutableTileQueue core = [])
      (hqueue : s.executableTileQueue (config.partitionOf core) = [])
      (hmodel : s.requestQueue.findIdx?
        (fun r => r.model.partitionId == config.partitionOf core) = some i)
      (htake : s.takeLayer i = some (op, requestId, t)) (hnew : ¬ t.isActive op.id)
      (hmoved : op.moved = 0) :
      CoreCalls config s core
        ((t.moveLayer i op.id).enqueueLayer op requestId (config.partitionOf core))

/-- `refresh_status` makes the call of core `core` in state `u`. -/
inductive RefreshCalls (config : SimulationConfig) (s : Scheduler) :
    SchedulerType → Nat → Scheduler → Prop
  | core {core : Nat} {t u : Scheduler} (hnonempty : s.dropFinished.requestQueue ≠ [])
      (hcore : core < config.numCores)
      (hbefore : (List.range core).foldlM (refreshCore config) s.dropFinished = some t)
      (hcall : CoreCalls config t core u) : RefreshCalls config s .partitionCpu core u

/-- `finish_tile` makes the call of core `core` in state `u`. -/
inductive FinishCalls (config : SimulationConfig) (s : Scheduler) (layerId : Nat)
    (type : SchedulerType) (core : Nat) (u : Scheduler) : Prop
  | more {stat : LayerStat} (hstat : s.activeLayersMap.lookup layerId = some stat)
      (hmore : 1 < stat.remainTiles)
      (hrefresh : RefreshCalls config (s.setLayerStat layerId { stat with
        remainTiles := stat.remainTiles - 1, finishedTiles := stat.finishedTiles + 1 })
        type core u) : FinishCalls config s layerId type core u
  | last {stat : LayerStat} {t : Scheduler}
      (hstat : s.activeLayersMap.lookup layerId = some stat) (hlast : stat.remainTiles = 1)
      (hfinish : setLayerFinish type (s.setLayerStat layerId { stat with
          remainTiles := stat.remainTiles - 1, finishedTiles := stat.finishedTiles + 1 }) layerId
        { stat with
          remainTiles := stat.remainTiles - 1, finishedTiles := stat.finishedTiles + 1 } = some t)
      (hrefresh : RefreshCalls config { t with activeLayersMap := t.activeLayersMap.erase layerId }
        type core u) : FinishCalls config s layerId type core u

/-- What follows a barrier of layer `layerId` that core `poll` has popped makes the call of core
`core` in state `u`. -/
inductive BarCalls (config : SimulationConfig) (s : Scheduler) (poll layerId : Nat)
    (type : SchedulerType) : Nat → Scheduler → Prop
  | finish {core : Nat} {u : Scheduler} (hlast : (s.layerStat layerId).remainTiles = 0)
      (hfinish : FinishCalls config
        (s.setLayerStat layerId { s.layerStat layerId with remainTiles := 1 }) layerId type core u) :
      BarCalls config s poll layerId type core u
  | issue (hmore : (s.layerStat layerId).remainTiles ≠ 0) :
      BarCalls config s poll layerId type poll s

/-- `get_tile` for core `poll` makes the call of core `core` in state `u`. -/
inductive GetCalls (config : SimulationConfig) (s : Scheduler) (poll : Nat) (type : SchedulerType)
    (core : Nat) (u : Scheduler) : Prop
  | refresh (hcore : s.coreExecutableTileQueue poll = [])
      (hqueue : s.executableTileQueue (config.partitionOf poll) = [])
      (hrefresh : RefreshCalls config s type core u) : GetCalls config s poll type core u
  | popBar {bar : Tile} {rest : List Tile} (hcore : s.coreExecutableTileQueue poll = [])
      (hqueue : s.executableTileQueue (config.partitionOf poll) = bar :: rest)
      (hbar : bar.status = .BAR)
      (hfinished : (s.layerStat bar.layerId).launchedTiles = (s.layerStat bar.layerId).finishedTiles)
      (hafter : BarCalls config (s.popBar (config.partitionOf poll) bar) poll bar.layerId type core
        u) : GetCalls config s poll type core u

/-! ### The loads when a call is made -/

theorem fits_all (pq : List CoreLoad) (tiles : List Tile) : IssueCall.all.Fits pq tiles := by
  induction tiles generalizing pq with
  | nil => trivial
  | cons tile tiles ih => exact .inr fun top _ => ⟨fun _ => ⟨rfl, rfl⟩, ih _⟩

/-- The layers' counters are not part of it. -/
theorem LoadsAgree.activeLayers (h : LoadsAgree config s) (map : AList fun _ : Nat => LayerStat) :
    LoadsAgree config { s with activeLayersMap := map } := h.congr rfl rfl rfl

theorem LoadsAgree.popBar (h : LoadsAgree config s) (p : Nat) (bar : Tile) :
    LoadsAgree config (s.popBar p bar) := h.congr rfl rfl rfl

theorem LoadsAgree.report (h : LoadsAgree config s) (tile : Tile) :
    LoadsAgree config (s.report tile) := h.congr rfl rfl rfl

theorem LoadsAgree.requests (h : LoadsAgree config s) (requests : List Request) :
    LoadsAgree config { s with requestQueue := requests } := h.congr rfl rfl rfl

theorem LoadsAgree.putModel (h : LoadsAgree config s) (i : Nat) (r : Request) (m : Model) :
    LoadsAgree config (s.putModel i r m) := h.congr rfl rfl rfl

theorem LoadsAgree.dropFront (h : LoadsAgree config s) : LoadsAgree config s.dropFront := by
  unfold Scheduler.dropFront
  split
  · exact h
  · split
    · exact h.congr rfl rfl rfl
    · exact h

theorem LoadsAgree.dropFinished (h : LoadsAgree config s) : LoadsAgree config s.dropFinished :=
  h.congr rfl rfl rfl

theorem LoadsAgree.issueTilePerCore (h : LoadsAgree config s) {op : Operation} {requestId i : Nat}
    {r : Request} {m : Model}
    (hs : Scheduler.issueTilePerCore config ((s.putModel i r m).enqueueLayer op requestId 0) =
      some s') : LoadsAgree config s' := by
  have hfits := fits_all s.corePq (s.executableTileQueue 0 ++ op.tiles)
  have hqueue : IssueCall.all.FitsIn ((s.putModel i r m).enqueueLayer op requestId 0) := by
    simpa [IssueCall.FitsIn, enqueueLayer, Scheduler.putModel, IssueCall.partitionId] using hfits
  exact hqueue.loadsAgree (h.congr rfl rfl rfl) hs

theorem CoreCalls.loadsAgree {core : Nat} {u : Scheduler} (hcall : CoreCalls config s core u)
    (h : LoadsAgree config s) : LoadsAgree config u := by
  cases hcall with
  | start _ _ _ htake =>
    obtain ⟨r, m, -, -, -, -, hmove, -⟩ := takeLayer_eq_some htake
    rw [hmove]
    exact h.congr rfl rfl rfl

section calls

-- `K` is what the calls have, and what a call needs to keep the loads as they should be
variable {K : Nat → Scheduler → Prop}
  (hK : ∀ core u u', K core u → LoadsAgree config u →
    (callOf config core).issue config u = some u' → LoadsAgree config u')

include hK

theorem refreshCore_loadsAgree {core : Nat} (h : LoadsAgree config s)
    (hcalls : ∀ u, CoreCalls config s core u → K core u)
    (hs : refreshCore config s core = some s') : LoadsAgree config s' := by
  unfold refreshCore at hs
  simp only at hs
  split at hs
  · rename_i hidle
    obtain ⟨hcore, hqueue⟩ := Bool.and_eq_true_iff.mp hidle
    split at hs
    · obtain rfl := Option.some.inj hs
      exact h
    · rename_i i hmodel
      split at hs
      · obtain rfl := Option.some.inj hs
        exact h
      · rename_i op requestId t htake
        obtain ⟨r, m, -, -, -, rfl, -, -⟩ := takeLayer_eq_some htake
        split at hs
        · obtain rfl := Option.some.inj hs
          exact h.putModel i r m
        · rename_i hnew
          split at hs
          · cases hs
          · rename_i hmoved
            have hcall := CoreCalls.start (List.isEmpty_iff.mp hcore) (List.isEmpty_iff.mp hqueue)
              hmodel htake hnew (not_not.mp hmoved)
            exact hK core _ s' (hcalls _ hcall) (hcall.loadsAgree h) hs
  · obtain rfl := Option.some.inj hs
    exact h

/-- The loads when the loop over the cores has come to core `n`. -/
theorem refreshCores_loadsAgree {n : Nat} {t : Scheduler} (hn : n ≤ config.numCores)
    (h : LoadsAgree config s) (hnonempty : s.dropFinished.requestQueue ≠ [])
    (hcalls : ∀ core u, RefreshCalls config s .partitionCpu core u → K core u)
    (hs : (List.range n).foldlM (refreshCore config) s.dropFinished = some t) :
    LoadsAgree config t := by
  induction n generalizing t with
  | zero =>
    obtain rfl := Option.some.inj hs
    exact h.dropFinished
  | succ n ih =>
    rw [List.range_succ, List.foldlM_append] at hs
    obtain ⟨t', ht', hs⟩ := Option.bind_eq_some_iff.mp hs
    rw [List.foldlM_cons] at hs
    obtain ⟨t'', hlast, hs⟩ := Option.bind_eq_some_iff.mp hs
    obtain rfl := Option.some.inj hs
    refine refreshCore_loadsAgree hK (ih (by omega) ht') (fun u hcall => ?_) hlast
    exact hcalls n u (.core hnonempty hn ht' hcall)

theorem refreshStatus_loadsAgree (h : LoadsAgree config s)
    (hcalls : ∀ core u, RefreshCalls config s type core u → K core u)
    (hs : refreshStatus config type s = some s') : LoadsAgree config s' := by
  cases type with
  | simple =>
    exact refreshSimple_steps (fun _ _ h => h.dropFront)
      (fun _ _ _ _ _ _ _ _ h _ _ _ _ _ _ hs => h.issueTilePerCore hs) rfl h hs
  | timeMultiplex =>
    have hnot : SchedulerType.timeMultiplex ≠ .simple := by simp
    exact refreshTimeMultiplex_steps (fun _ _ h => h.dropFinished)
      (fun _ _ h => h.congr rfl rfl rfl) (fun _ i r _ m h _ _ _ => h.putModel i r m)
      (fun _ _ _ _ _ _ _ _ h _ _ _ _ _ _ hs => h.issueTilePerCore hs) hnot h hs
  | partitionCpu =>
    simp only [refreshStatus, refreshPartitionCpu] at hs
    split at hs
    · obtain rfl := Option.some.inj hs
      exact h.dropFinished
    · rename_i hnonempty
      exact refreshCores_loadsAgree hK (Nat.le_refl _) h
        (fun hempty => hnonempty (List.isEmpty_iff.mpr hempty)) hcalls hs

theorem RefreshCalls.loadsAgree {core : Nat} {u : Scheduler} (h : LoadsAgree config s)
    (hcalls : ∀ core u, RefreshCalls config s type core u → K core u)
    (hcall : RefreshCalls config s type core u) : LoadsAgree config u := by
  cases hcall with
  | core hnonempty hcore hbefore hcall =>
    exact hcall.loadsAgree
      (refreshCores_loadsAgree hK (Nat.le_of_lt hcore) h hnonempty hcalls hbefore)

omit hK in
theorem LoadsAgree.setLayerFinish {layerId : Nat} {stat : LayerStat} (h : LoadsAgree config s)
    (hs : setLayerFinish type s layerId stat = some s') : LoadsAgree config s' := by
  obtain ⟨requests, rfl, -⟩ :=
    setLayerFinish_requests (P := fun _ => True) (fun _ _ _ _ => trivial) (fun _ _ => trivial) hs
  exact h.congr rfl rfl rfl

theorem finishTile_loadsAgree {layerId : Nat} (h : LoadsAgree config s)
    (hcalls : ∀ core u, FinishCalls config s layerId type core u → K core u)
    (hs : finishTile config type s layerId = some s') : LoadsAgree config s' := by
  obtain ⟨stat, hstat, hremain, ⟨hmore, hs⟩ | ⟨hlast, u, hu, hs⟩⟩ := finishTile_eq_some hs
  · refine refreshStatus_loadsAgree hK (h.activeLayers _) (fun core u hcall => ?_) hs
    exact hcalls core u (.more hstat (by omega) hcall)
  · have hfinish := (h.activeLayers _).setLayerFinish hu
    refine refreshStatus_loadsAgree hK (hfinish.activeLayers _) (fun core u hcall => ?_) hs
    exact hcalls core u (.last hstat hlast hu hcall)

theorem FinishCalls.loadsAgree {layerId core : Nat} {u : Scheduler} (h : LoadsAgree config s)
    (hcalls : ∀ core u, FinishCalls config s layerId type core u → K core u)
    (hcall : FinishCalls config s layerId type core u) : LoadsAgree config u := by
  cases hcall with
  | more hstat hmore hrefresh =>
    exact hrefresh.loadsAgree hK (h.activeLayers _) fun core u hcall =>
      hcalls core u (.more hstat hmore hcall)
  | last hstat hlast hfinish hrefresh =>
    have hfinished := (h.activeLayers _).setLayerFinish hfinish
    exact hrefresh.loadsAgree hK (hfinished.activeLayers _) fun core u hcall =>
      hcalls core u (.last hstat hlast hfinish hcall)

theorem afterBar_loadsAgree {poll layerId : Nat} (h : LoadsAgree config s)
    (hcalls : ∀ core u, BarCalls config s poll layerId type core u → K core u)
    (hs : afterBar config type s poll (config.partitionOf poll) layerId = some s') :
    LoadsAgree config s' := by
  unfold afterBar at hs
  simp only at hs
  split at hs
  · rename_i hlast
    refine finishTile_loadsAgree hK (h.activeLayers _) (fun core u hcall => ?_) hs
    exact hcalls core u (.finish hlast hcall)
  · rename_i hmore
    exact hK poll s s' (hcalls poll s (.issue hmore)) h hs

theorem BarCalls.loadsAgree {poll layerId core : Nat} {u : Scheduler} (h : LoadsAgree config s)
    (hcalls : ∀ core u, BarCalls config s poll layerId type core u → K core u)
    (hcall : BarCalls config s poll layerId type core u) : LoadsAgree config u := by
  cases hcall with
  | finish hlast hfinish =>
    exact hfinish.loadsAgree hK (h.activeLayers _) fun core u hcall =>
      hcalls core u (.finish hlast hcall)
  | issue => exact h

theorem getTile_loadsAgree {poll : Nat} {tile : Option Tile} (h : LoadsAgree config s)
    (hcalls : ∀ core u, GetCalls config s poll type core u → K core u)
    (hs : getTile config type s poll = some (tile, s')) : LoadsAgree config s' := by
  unfold getTile at hs
  simp only at hs
  split at hs
  · rename_i hcore hqueue
    obtain ⟨u, hu, hs⟩ := Option.bind_eq_some_iff.mp hs
    obtain ⟨-, rfl⟩ := Prod.mk.inj (Option.some.inj hs)
    refine refreshStatus_loadsAgree hK h (fun core u hcall => ?_) hu
    exact hcalls core u (.refresh hcore hqueue hcall)
  · obtain ⟨-, rfl⟩ := Prod.mk.inj (Option.some.inj hs)
    exact h.congr rfl rfl rfl
  · rename_i bar rest hcore hqueue
    split at hs
    · rename_i hbar
      split at hs
      · rename_i hfinished
        obtain ⟨u, hu, hs⟩ := Option.bind_eq_some_iff.mp hs
        obtain ⟨-, rfl⟩ := Prod.mk.inj (Option.some.inj hs)
        refine afterBar_loadsAgree hK (h.popBar _ _) (fun core u hcall => ?_) hu
        exact hcalls core u (.popBar hcore hqueue hbar hfinished hcall)
      · obtain ⟨-, rfl⟩ := Prod.mk.inj (Option.some.inj hs)
        exact h.congr rfl rfl rfl
    · obtain ⟨-, rfl⟩ := Prod.mk.inj (Option.some.inj hs)
      exact h

theorem GetCalls.loadsAgree {poll core : Nat} {u : Scheduler} (h : LoadsAgree config s)
    (hcalls : ∀ core u, GetCalls config s poll type core u → K core u)
    (hcall : GetCalls config s poll type core u) : LoadsAgree config u := by
  cases hcall with
  | refresh hcore hqueue hrefresh =>
    exact hrefresh.loadsAgree hK h fun core u hcall =>
      hcalls core u (.refresh hcore hqueue hcall)
  | popBar hcore hqueue hbar hfinished hafter =>
    exact hafter.loadsAgree hK (h.popBar _ _) fun core u hcall =>
      hcalls core u (.popBar hcore hqueue hbar hfinished hcall)

end calls

end Scheduler

namespace System

open Scheduler

variable {config : SimulationConfig} {type : SchedulerType} {s u : System} {a : Act}

/-- The step makes the call of core `core` in state `v` of the scheduler. -/
inductive Calls (config : SimulationConfig) (type : SchedulerType) (s : System) :
    Act → Nat → Scheduler → Prop
  | scheduleModel {requestId core : Nat} {m : Model} {tagged : m.Tagged} {v : Scheduler}
      (hrefresh : RefreshCalls config { s.sched with
        requestQueue := s.sched.requestQueue ++ [{ requestId := requestId, model := m }] }
        type core v) : Calls config type s (.scheduleModel requestId m tagged) core v
  | getTile {poll core : Nat} {v : Scheduler} (hpoll : poll < config.numCores)
      (hget : GetCalls config s.sched poll type core v) :
      Calls config type s (.getTile poll) core v
  | finishTile {poll i core : Nat} {t : Tile} {v : Scheduler} (hpoll : poll < config.numCores)
      (htile : (s.running poll)[i]? = some t)
      (hfinish : FinishCalls config (s.sched.report t) t.layerId type core v) :
      Calls config type s (.finishTile poll i) core v

/-- The calls of the step charge the cores that receive the tiles. -/
def ChargesRight (config : SimulationConfig) (type : SchedulerType) (s : System) (a : Act) : Prop :=
  ∀ core v, Calls config type s a core v → IssueCall.Right config (callOf config core) v

/-- The tiles that the calls of the step count are issued by the first core of a partition, and find
a least loaded core that its own number leads to. -/
def CallsFit (config : SimulationConfig) (type : SchedulerType) (s : System) (a : Act) : Prop :=
  ∀ core v, Calls config type s a core v → (callOf config core).FitsIn v

section calls

variable {K : Nat → Scheduler → Prop}
  (hK : ∀ core u u', K core u → LoadsAgree config u →
    (callOf config core).issue config u = some u' → LoadsAgree config u')

include hK

theorem step_loadsAgree (h : LoadsAgree config s.sched)
    (hcalls : ∀ core v, Calls config type s a core v → K core v)
    (hstep : step config type s a = some u) : LoadsAgree config u.sched := by
  cases a with
  | scheduleModel requestId m tagged =>
    obtain ⟨sched, hsched, hstep⟩ := Option.bind_eq_some_iff.mp hstep
    obtain rfl := Option.some.inj hstep
    exact refreshStatus_loadsAgree hK (h.requests _)
      (fun core v hcall => hcalls core v (.scheduleModel hcall)) hsched
  | getTile poll =>
    unfold step at hstep
    simp only at hstep
    split at hstep
    · rename_i hpoll
      obtain ⟨⟨tile, sched⟩, hget, hstep⟩ := Option.bind_eq_some_iff.mp hstep
      obtain rfl := Option.some.inj hstep
      exact getTile_loadsAgree hK h
        (fun core v hcall => hcalls core v (.getTile hpoll hcall)) hget
    · cases hstep
  | finishTile poll i =>
    unfold step at hstep
    simp only at hstep
    split at hstep
    · rename_i hpoll
      obtain ⟨t, ht, hstep⟩ := Option.bind_eq_some_iff.mp hstep
      obtain ⟨sched, hsched, hstep⟩ := Option.bind_eq_some_iff.mp hstep
      obtain rfl := Option.some.inj hstep
      exact finishTile_loadsAgree hK (h.report t)
        (fun core v hcall => hcalls core v (.finishTile hpoll ht hcall)) hsched
    · cases hstep

theorem Calls.loadsAgree {core : Nat} {v : Scheduler} (h : LoadsAgree config s.sched)
    (hcalls : ∀ core v, Calls config type s a core v → K core v)
    (hcall : Calls config type s a core v) : LoadsAgree config v := by
  cases hcall with
  | scheduleModel hrefresh =>
    exact hrefresh.loadsAgree hK (h.requests _) fun core v hcall =>
      hcalls core v (.scheduleModel hcall)
  | getTile hpoll hget =>
    exact hget.loadsAgree hK h fun core v hcall => hcalls core v (.getTile hpoll hcall)
  | finishTile hpoll htile hfinish =>
    exact hfinish.loadsAgree hK (h.report _) fun core v hcall =>
      hcalls core v (.finishTile hpoll htile hcall)

/-- Where every call of a run and of the step after it has `K`, every call finds the loads as they
should be. -/
theorem Run.calls_loadsAgree {h : List (System × Act)} (run : Run config type h s)
    (hcalls : Machine.EachStep
      (fun t b => ∀ core v, Calls config type t b core v → K core v) (h ++ [(s, a)])) :
    Machine.EachStep
      (fun t b => ∀ core v, Calls config type t b core v → LoadsAgree config v)
      (h ++ [(s, a)]) := by
  obtain ⟨hrun, hlast⟩ := Machine.EachStep.snoc_iff.mp hcalls
  have hall : Machine.Always (fun t : System => LoadsAgree config t.sched) h s := by
    refine Machine.Run.always_of_eachStep run (List.Perm.refl _) ?_ hrun
    exact fun t b u ht hb hstep => step_loadsAgree hK ht hb hstep
  refine Machine.EachStep.snoc_iff.mpr ⟨fun x hx core v hcall => ?_, fun core v hcall => ?_⟩
  · exact hcall.loadsAgree hK (hall.1 x hx) (hrun x hx)
  · exact hcall.loadsAgree hK hall.2 hlast

end calls

/-- The calls of a run, and of the step that is tried after it, charge the cores that receive the
tiles exactly when they all fit. -/
theorem charges_right_iff {h : List (System × Act)} (run : Run config type h s) (a : Act) :
    Machine.EachStep (ChargesRight config type) (h ++ [(s, a)]) ↔
      Machine.EachStep (CallsFit config type) (h ++ [(s, a)]) := by
  constructor
  · intro hright x hx core v hcall
    refine (IssueCall.right_iff ?_).mp (hright x hx core v hcall)
    refine run.calls_loadsAgree (K := fun core v => IssueCall.Right config (callOf config core) v)
      (fun _ _ _ hK h hs => hK.loadsAgree h hs) hright x hx core v hcall
  · intro hfit x hx core v hcall
    refine (IssueCall.right_iff ?_).mpr (hfit x hx core v hcall)
    refine run.calls_loadsAgree (K := fun core v => (callOf config core).FitsIn v)
      (fun _ _ _ hK h hs => hK.loadsAgree h hs) hfit x hx core v hcall

/-! ## The second core polls at a barrier -/

/-- A layer of a tile, a barrier and a tile. -/
def barredModel : Model where
  operationMap := [{
    id := 0
    tiles := [{ status := .INITIALIZED, layerId := 0 }, { status := .BAR, layerId := 0 },
      { status := .INITIALIZED, layerId := 0 }] }]
  executableLayer := [0]

theorem barredModel_tagged : barredModel.Tagged := by
  unfold Model.Tagged barredModel
  decide

/-- Core 0 runs the tile before the barrier. -/
def barredCalls : List Act :=
  [.scheduleModel 0 barredModel barredModel_tagged, .getTile 0, .finishTile 0 0]

/-- Core 1 polls, and has the least load: the tile after the barrier is counted for core 2, which
does not exist. -/
theorem barrier_charges_out_of_bounds : ¬ ∀ (config : SimulationConfig) (type : SchedulerType)
    (h : List (System × Act)) (s : System) (a : Act), Run config type h s →
      ChargesRight config type s a := by
  intro hall
  have hend : (barredCalls.foldlM (step twoCoreConfig .simple) (init twoCoreConfig)).map
      (fun s => (s.sched.coreExecutableTileQueue 1, s.sched.executableTileQueue 0, s.sched.corePq,
        (s.sched.layerStat 0).launchedTiles, (s.sched.layerStat 0).finishedTiles,
        ((s.sched.popBar 0 { status := .BAR, layerId := 0 }).layerStat 0).remainTiles)) =
      some ([], [{ status := .BAR, layerId := 0 }, { status := .INITIALIZED, layerId := 0 }],
        [{ tileCount := 0, insCount := 0, coreId := 1 },
          { tileCount := 1, insCount := 0, coreId := 0 }], 1, 1, 1) := by decide +kernel
  obtain ⟨s, hs, hend⟩ := Option.map_eq_some_iff.mp hend
  simp only [Prod.mk.injEq] at hend
  obtain ⟨hcore, hqueue, hpq, hlaunched, hfinished, hremain⟩ := hend
  obtain ⟨h, -, run⟩ := Machine.Run.of_foldlM hs
  have hcall : Calls twoCoreConfig .simple s (.getTile 1) 1
      (s.sched.popBar 0 { status := .BAR, layerId := 0 }) := by
    refine .getTile (by decide) (.popBar hcore hqueue rfl (hlaunched.trans hfinished.symm) ?_)
    exact .issue (ne_of_eq_of_ne hremain Nat.one_ne_zero)
  have hright := hall twoCoreConfig .simple h s (.getTile 1) run 1 _ hcall
  have hfront : (s.sched.popBar 0 { status := .BAR, layerId := 0 }).executableTileQueue 0 =
      [{ status := .INITIALIZED, layerId := 0 }] := by
    simp [popBar, hqueue]
  have htop : topLoad (s.sched.popBar 0 { status := .BAR, layerId := 0 }).corePq =
      some { tileCount := 0, insCount := 0, coreId := 1 } := by
    rw [show (s.sched.popBar 0 _).corePq = s.sched.corePq from rfl, hpq]
    decide
  have hcharged := hright.charged _ _ _ (.front hfront (by decide)) rfl htop
  exact absurd hcharged.inBounds (by decide)

/-- The criterion for that run. -/
theorem charges_right_iff_barred : ∃ (h : List (System × Act)) (s : System),
    h.map Prod.snd = barredCalls ∧ Run twoCoreConfig .simple h s ∧
    (Machine.EachStep (ChargesRight twoCoreConfig .simple) (h ++ [(s, .getTile 1)]) ↔
      Machine.EachStep (CallsFit twoCoreConfig .simple) (h ++ [(s, .getTile 1)])) := by
  have hsome : (barredCalls.foldlM (step twoCoreConfig .simple) (init twoCoreConfig)).isSome := by
    decide +kernel
  obtain ⟨s, hs⟩ := Option.isSome_iff_exists.mp hsome
  obtain ⟨h, hacts, run⟩ := Machine.Run.of_foldlM hs
  have run' : Run twoCoreConfig .simple h s := run
  exact ⟨h, s, hacts, run', charges_right_iff run' (.getTile 1)⟩

end System

end OnnxSim
