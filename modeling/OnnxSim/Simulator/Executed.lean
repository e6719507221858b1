import OnnxSim.Scheduler.HalfDependencies
import OnnxSim.Simulator.Dispatch

/-!
# What a simulation executes

With any of the four schedulers, and in any interleaving of the cores with the memory system: a tile is on
a core only after all tiles of the operations whose outputs it reads have been taken back from their cores
(`Simulator.operands_collected`), and when a simulation ends, every registered model has been scheduled
and each of its tiles has been executed exactly once (`Simulator.everything_executed`).
-/

namespace OnnxSim

open Scheduler (anyCore notBar ofLayer)

/-! ## The tiles of a layer -/

theorem filter_ofLayer_label (l : List Tile) (layerId : Nat) :
    (l.map Tile.label).filter (ofLayer layerId) = (l.filter (ofLayer layerId)).map Tile.label := by
  rw [List.filter_map]
  rfl

/-- Lists of tiles that agree layer by layer agree. -/
theorem perm_of_layers {l l' : List Tile}
    (h : ∀ layerId, ((l.filter (ofLayer layerId)).map Tile.label).Perm
      ((l'.filter (ofLayer layerId)).map Tile.label)) :
    (l.map Tile.label).Perm (l'.map Tile.label) := by
  refine List.perm_iff_count.mpr fun x => ?_
  have hself : ofLayer x.layerId x = true := by simp [ofLayer]
  have hcount := (h x.layerId).count_eq x
  rw [← filter_ofLayer_label, ← filter_ofLayer_label, List.count_filter hself,
    List.count_filter hself] at hcount
  exact hcount

/-- The tiles that the operations of a list have to execute. -/
def toExecute (ops : List Operation) : List Tile := ops.flatMap fun y => y.tiles.filter notBar

theorem filter_tiles_of_tagged {x : Operation} (hx : ∀ t ∈ x.tiles, t.layerId = x.id) (l : Nat) :
    (x.tiles.filter notBar).filter (ofLayer l) = if x.id = l then x.tiles.filter notBar else [] := by
  split
  · rename_i hl
    refine List.filter_eq_self.mpr fun t ht => ?_
    simp [ofLayer, hx t (List.mem_of_mem_filter ht), hl]
  · rename_i hl
    refine List.filter_eq_nil_iff.mpr fun t ht => ?_
    simp [ofLayer, hx t (List.mem_of_mem_filter ht), hl]

/-- No operation has the identifier. -/
theorem filter_toExecute_of_not_mem {ops : List Operation} (htagged : ∀ x ∈ ops, ∀ t ∈ x.tiles,
    t.layerId = x.id) {l : Nat} (hl : l ∉ ops.map (·.id)) : (toExecute ops).filter (ofLayer l) = [] := by
  unfold toExecute
  rw [List.filter_flatMap, List.flatMap_eq_nil_iff]
  intro x hx
  rw [filter_tiles_of_tagged (htagged x hx), if_neg]
  rintro rfl
  exact hl (List.mem_map_of_mem hx)

/-- One operation has it. -/
theorem filter_toExecute_of_mem {ops : List Operation} (htagged : ∀ x ∈ ops, ∀ t ∈ x.tiles,
    t.layerId = x.id) (hids : (ops.map (·.id)).Nodup) {y : Operation} (hy : y ∈ ops) :
    (toExecute ops).filter (ofLayer y.id) = y.tiles.filter notBar := by
  induction ops with
  | nil => cases hy
  | cons x ops ih =>
    have htail : ∀ x ∈ ops, ∀ t ∈ x.tiles, t.layerId = x.id :=
      fun x hx => htagged x (List.mem_cons_of_mem _ hx)
    obtain ⟨hnot, hids⟩ := List.nodup_cons.mp hids
    have hsplit : toExecute (x :: ops) = x.tiles.filter notBar ++ toExecute ops := rfl
    rw [hsplit, List.filter_append, filter_tiles_of_tagged (htagged x List.mem_cons_self)]
    rcases List.mem_cons.mp hy with rfl | hy
    · rw [if_pos rfl, filter_toExecute_of_not_mem htail hnot, List.append_nil]
    · have hne : x.id ≠ y.id := by
        intro heq
        have hmem : y.id ∈ ops.map (·.id) := List.mem_map_of_mem hy
        rw [← heq] at hmem
        exact hnot hmem
      rw [if_neg hne, List.nil_append]
      exact ih htail hids hy

namespace Simulator

variable {sched : SchedulerInterface} {config : SimulationConfig} {s u : Simulator sched}
  {h : List (Simulator sched × Act)}

/-- Every tile of the operation, barriers apart, has been executed and collected, each once. -/
def Executed (s : Simulator sched) (y : Operation) : Prop :=
  ((s.collected.filter (ofLayer y.id)).map Tile.label).Perm ((y.tiles.filter notBar).map Tile.label)

/-- A registered model has been scheduled or is in the heap. -/
theorem Run.registered_perm (run : Run sched config h s) :
    (registeredIn h).Perm (s.launched.map Prod.fst ++ s.models) := by
  obtain ⟨latency, layerId, fusedOpId, periods, cycleMask, run⟩ := run
  induction run with
  | nil => exact .rfl
  | @snoc h t a u run hs ih =>
    have hloop : t.InLoop config := run.invariant
      (InLoop.of_other fun core => ⟨nofun, nofun⟩) fun _ _ _ hloop hs => hloop.step hs
    have happ : registeredIn (h ++ [(t, a)]) = registeredIn h ++ a.registered := by
      unfold registeredIn
      rw [List.flatMap_append, List.flatMap_singleton]
    rw [happ]
    have heffect := step_effect hloop hs
    generalize a.registered = registered at heffect ⊢
    cases heffect with
    | register =>
      rw [← List.append_assoc]
      exact ih.append_right _
    | @launch i pending m nextId scheduler hi hm hsched =>
      obtain ⟨hlt, rfl⟩ := List.getElem?_eq_some_iff.mp hi
      rw [List.append_nil, List.map_append, List.map_singleton, List.append_assoc]
      exact ih.trans ((List.getElem_cons_eraseIdx_perm hlt).symm.append_left _)
    | idle => simpa using ih
    | memory hmem hissue hpop => simpa using ih
    | pop hmem hstatus => simpa using ih
    | finish hmem hstatus hsched => simpa using ih
    | refuse hcore hsched htile => simpa using ih
    | issue hsched hstatus hmem => simpa using ih

/-- What has been reported to the scheduler has been collected. -/
theorem Driven.executed {d : Dispatcher config.numCores sched} {h' : List (d.State × System.Act)}
    {t : d.State} (hd : Driven d s h' t) {y : Operation} (hy : Reported (d.reported t) y) :
    s.Executed y := by
  have hlabels := hy.map Tile.label
  rw [map_label_anyCore, map_label_anyCore] at hlabels
  exact (hd.reported y.id).symm.trans hlabels

/-- In every state of every run a tile on a core is a tile of an operation of a scheduled model, and the
operations whose outputs that operation reads have been executed. -/
theorem operands_collected (type : HardwareType)
    {h : List (Simulator (.create config type) × Act)} {s : Simulator (.create config type)}
    (run : Run (.create config type) config h s) (hregister : Machine.EachStep RegistersBuilds h)
    {core : Nat} (hcore : core < config.numCores) {tile : Tile}
    (htile : tile ∈ (s.memory.cores core).tiles ++ (s.memory.cores core).finishedTiles) :
    ∃ m ∈ s.launchedModels, ∃ x ∈ m.operationMap, x.id = tile.layerId ∧
      (∃ t ∈ x.tiles, t.label = tile.label) ∧
      ∀ y ∈ m.operationMap, ∀ t ∈ x.inputs, t ∈ y.outputs → s.Executed y := by
  obtain ⟨h', t, run', hd⟩ := run.driven (Dispatcher.create config type) hregister
  obtain ⟨held, dropped, hheld, hrunning⟩ := hd.handedOut
  have hmem : tile.label ∈ held core :=
    (hheld core).1.mem_iff.mp (List.mem_map_of_mem htile)
  obtain ⟨z, hz, hlabel⟩ := List.mem_map.mp
    ((hrunning core).mem_iff.mpr (List.mem_append_left _ hmem))
  have hbooks := (Dispatcher.create config type).dispatchBooks run'
    (hd.scheduled ▸ hd.launches.initialised) (hd.scheduled ▸ hd.launches.nodup)
  obtain ⟨m, hm, x, hx, hid, ⟨w, hw, hsame⟩, hproducers⟩ := hbooks.handedOut core hcore z hz
  have hlayer : z.layerId = tile.layerId := by
    rw [← Tile.label_layerId z, hlabel, Tile.label_layerId]
  refine ⟨m, hd.scheduled ▸ hm, x, hx, hid.trans hlayer, ⟨w, hw, ?_⟩, fun y hy v hvx hvy => ?_⟩
  · rw [← hlabel, ← Tile.label_onCore w 0, hsame, Tile.label_onCore]
  · exact hd.executed (hproducers y hy v hvx hvy)

section chain

/-- Every operation has one tile, which is skipped. -/
def skipped (_ : Nat) : List Tile := [{ status := .INITIALIZED, skip := true }]

/-- A file of two operations, the second of which reads the output of the first. -/
def chainFile : PendingModel := .ofFile 0 chainNodes none [] skipped

/-- The ticks of an iteration on one core, after the test of the loop. -/
def iteration : List Act :=
  [.launched, .collect, .feed, .tick, .coresDone, .dram, .icnt (fun _ => false) fun _ => false]

/-- The second iteration issues the tile of the second operation. -/
def chainActs : List Act :=
  [.register chainFile 0, .enter false, .launch 0] ++ iteration ++ [.enter false, .launched, .collect, .feed]

/-- The actions that go through are a run, which registers the file. -/
theorem exists_run_of_chain {type : HardwareType} {acts : List Act}
    {s : Simulator (.create System.oneCore type)}
    (hs : acts.foldlM (step System.oneCore)
      (init _ System.oneCore 1 (fun _ => 0) (fun _ => 0) (fun _ => 1) 0) = some s)
    (hacts : acts.flatMap Act.registered = [chainFile]) :
    ∃ h, Run (.create System.oneCore type) System.oneCore h s ∧
      Machine.EachStep RegistersBuilds h ∧ registeredIn h = [chainFile] := by
  obtain ⟨h, hmap, run⟩ := Machine.Run.of_foldlM hs
  have hregistered : registeredIn h = [chainFile] := by
    rw [← hacts, ← hmap, List.flatMap_map]
    rfl
  refine ⟨h, ⟨1, _, _, _, 0, run⟩, fun p hp q hq => ?_, hregistered⟩
  have hmem : q ∈ registeredIn h := List.mem_flatMap.mpr ⟨p, hp, hq⟩
  rw [hregistered, List.mem_singleton] at hmem
  exact hmem ▸ PendingModel.ofFile_builds _ _ _ _ _

theorem operands_collected_chain :
    ∃ h s, Run (.create System.oneCore (.queues .simple)) System.oneCore h s ∧
      ∃ tile ∈ (s.memory.cores 0).tiles ++ (s.memory.cores 0).finishedTiles, tile.layerId = 3 ∧
      ∃ m ∈ s.launchedModels, ∃ x ∈ m.operationMap, x.id = tile.layerId ∧
        (∃ t ∈ x.tiles, t.label = tile.label) ∧
        ∀ y ∈ m.operationMap, ∀ t ∈ x.inputs, t ∈ y.outputs → s.Executed y := by
  have hfacts : (chainActs.foldlM (step System.oneCore) (init (.create System.oneCore (.queues .simple))
      System.oneCore 1 (fun _ => 0) (fun _ => 0) (fun _ => 1) 0)).map (fun s =>
        (s.memory.cores 0).finishedTiles.map (·.layerId)) = some [3] := by decide +kernel
  obtain ⟨s, hs, hfacts⟩ := Option.map_eq_some_iff.mp hfacts
  obtain ⟨h, run, hregister, -⟩ := exists_run_of_chain hs rfl
  have hmem : 3 ∈ (s.memory.cores 0).finishedTiles.map (·.layerId) := hfacts ▸ List.mem_singleton_self 3
  obtain ⟨tile, htile, hid⟩ := List.mem_map.mp hmem
  have htile := List.mem_append_right (s.memory.cores 0).tiles htile
  exact ⟨h, s, run, tile, htile, hid,
    operands_collected (.queues .simple) run hregister (by decide) htile⟩

end chain

/-- `running` has returned false: nothing is left anywhere. -/
theorem running_eq_false (h : s.running config = false) :
    s.models = [] ∧ sched.isEmpty s.scheduler = true ∧
      ∀ core < config.numCores, (s.memory.cores core).running = false := by
  unfold running at h
  simp only [Bool.or_eq_false_iff, Bool.not_eq_false', List.any_eq_false, List.mem_range,
    List.isEmpty_iff, Bool.not_eq_true] at h
  exact ⟨h.1.1, h.2, h.1.2⟩

/-- When a simulation ends every model that has been registered has been scheduled, the tiles of its
operations, barriers apart, have been executed and collected, each exactly once and nothing else, and no
core has a tile left. -/
theorem everything_executed (type : HardwareType)
    {h : List (Simulator (.create config type) × Act)} {s : Simulator (.create config type)}
    (run : Run (.create config type) config h s) (hregister : Machine.EachStep RegistersBuilds h)
    (hstop : s.running config = false) :
    (registeredIn h).Perm (s.launched.map Prod.fst) ∧
      (s.collected.map Tile.label).Perm
        ((toExecute (s.launchedModels.flatMap (·.operationMap))).map Tile.label) ∧
      ∀ core < config.numCores,
        (s.memory.cores core).tiles = [] ∧ (s.memory.cores core).finishedTiles = [] := by
  obtain ⟨hmodels, hempty, -⟩ := running_eq_false hstop
  obtain ⟨h', t, run', hd⟩ := run.driven (Dispatcher.create config type) hregister
  have hbooks := (Dispatcher.create config type).dispatchBooks run'
    (hd.scheduled ▸ hd.launches.initialised) (hd.scheduled ▸ hd.launches.nodup)
  obtain ⟨hidle, hall⟩ := hbooks.idle (hd.scheduler ▸ hempty)
  have hops : ((s.launchedModels.flatMap (·.operationMap)).map (·.id)) =
      s.launchedModels.flatMap Model.ids := List.map_flatMap
  refine ⟨?_, ?_, fun core hcore => ?_⟩
  · have hperm := run.registered_perm
    rwa [hmodels, List.append_nil] at hperm
  · have htagged : ∀ x ∈ s.launchedModels.flatMap (·.operationMap), ∀ t ∈ x.tiles,
        t.layerId = x.id := by
      intro x hx
      obtain ⟨m, hm, hx⟩ := List.mem_flatMap.mp hx
      exact hd.launches.tagged m hm x hx
    refine perm_of_layers fun l => ?_
    by_cases hl : l ∈ s.launchedModels.flatMap Model.ids
    · rw [← hops] at hl
      obtain ⟨y, hy, rfl⟩ := List.mem_map.mp hl
      obtain ⟨m, hm, hym⟩ := List.mem_flatMap.mp hy
      rw [filter_toExecute_of_mem htagged (hops ▸ hd.launches.nodup) hy]
      exact hd.executed (hall m (hd.scheduled ▸ hm) y hym)
    · have hnone : s.collected.filter (ofLayer l) = [] := by
        refine List.filter_eq_nil_iff.mpr fun x hx hlayer => hl ?_
        have hlayer' : x.layerId = l := by simpa [ofLayer] using hlayer
        exact hlayer' ▸ hd.known x hx
      rw [hnone, filter_toExecute_of_not_mem htagged (hops ▸ hl)]
  · obtain ⟨held, dropped, hheld, hrunning⟩ := hd.handedOut
    have hnothing : held core = [] := by
      have hperm := hrunning core
      rw [hidle core hcore, List.map_nil] at hperm
      exact (List.append_eq_nil_iff.mp hperm.symm.eq_nil).1
    have hheld' := (hheld core).1
    rw [hnothing] at hheld'
    have hcore' := List.map_eq_nil_iff.mp hheld'.eq_nil
    exact List.append_eq_nil_iff.mp hcore'

/-- The third iteration collects the tile of the second operation. -/
theorem everything_executed_chain :
    ∃ h s, Run (.create System.oneCore .spatialSplit) System.oneCore h s ∧
      registeredIn h = [chainFile] ∧ s.running System.oneCore = false ∧
      (registeredIn h).Perm (s.launched.map Prod.fst) ∧
      (s.collected.map Tile.label).Perm
        ((toExecute (s.launchedModels.flatMap (·.operationMap))).map Tile.label) ∧
      ∀ core < 1, (s.memory.cores core).tiles = [] ∧ (s.memory.cores core).finishedTiles = [] := by
  have hfacts : ((chainActs ++ iteration.drop 3 ++ .enter false :: iteration).foldlM (step System.oneCore)
      (init (.create System.oneCore .spatialSplit) System.oneCore 1 (fun _ => 0) (fun _ => 0)
        (fun _ => 1) 0)).map (fun s => s.running System.oneCore) = some false := by decide +kernel
  obtain ⟨s, hs, hstop⟩ := Option.map_eq_some_iff.mp hfacts
  obtain ⟨h, run, hregister, hregistered⟩ := exists_run_of_chain hs rfl
  exact ⟨h, s, run, hregistered, hstop, everything_executed .spatialSplit run hregister hstop⟩

end Simulator

end OnnxSim
