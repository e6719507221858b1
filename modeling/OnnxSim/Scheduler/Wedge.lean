import OnnxSim.Operations.Attention
import OnnxSim.Scheduler.HalfDependencies

/-!
# Layers without tiles

`refresh_status` makes a layer active with as many remaining tiles as were in the queue, and the layer
leaves the map of active layers when `finish_tile` counts its last tile. A layer that is started
without a tile stays there: every queue is empty, nothing runs, and the simple scheduler starts nothing
while a layer is active.

Where each operation of the scheduled models has a tile, and no operation is a child of its own
outputs, this does not happen (`System.no_wedged_layer`). It does with an attention whose loops are empty
(`System.wedged_attention`).
-/

namespace OnnxSim

/-- A graph without a `MambaBlock` has no operation that comes back. -/
theorem Graph.Buildable.noSelf {g : Graph} (hg : g.Buildable) (hmambas : g.mambas = [])
    (tiles : Nat → List Tile) : (g.toModel tiles).NoSelf := by
  obtain ⟨hwiring, -, -⟩ := hg.sound
  intro x hx hchild
  rcases hwiring.selfChild_cases ⟨x, hx, rfl, hchild⟩ with hmamba | ⟨y, hy, hid, hreads⟩
  · rw [hmambas] at hmamba
    cases hmamba
  · have hids : ((g.toModel tiles).operationMap.map (·.id)).Nodup := by
      simpa [Graph.toModel, Function.comp_def] using hwiring.opIds
    obtain rfl := List.inj_on_of_nodup_map hids hy hx hid
    exact hreads

namespace System

/-- The queues are empty, nothing runs, and a layer is active. -/
structure Wedged (config : SimulationConfig) (s : System) : Prop where
  queues : ∀ p, s.sched.executableTileQueue p = []
  coreQueues : ∀ core < config.numCores, s.sched.coreExecutableTileQueue core = []
  running : ∀ core < config.numCores, s.running core = []
  active : ∃ l, s.sched.isActive l

/-- No active layer is without tiles. -/
structure NoWedge (config : SimulationConfig) (s : System) : Prop where
  remain : ∀ l stat, s.sched.activeLayersMap.lookup l = some stat → 0 < stat.remainTiles
  moving : ¬ s.Wedged config

/-- A model that is scheduled has a tile for each of its operations, and none of them is a child of
its own outputs. -/
def LoadsLayers (_ : System) : Act → Prop
  | .scheduleModel _ m _ => m.NoSelf ∧ ∀ x ∈ m.operationMap, x.tiles ≠ []
  | _ => True

variable {config : SimulationConfig} {s : System} {h : List (System × Act)}

/-- An active layer of a wedged scheduler has no tile left. -/
theorem noWedge_of_remain (haccounts : Scheduler.Sound config s.running s.sched)
    (hremain : ∀ l stat, s.sched.activeLayersMap.lookup l = some stat → 0 < stat.remainTiles) :
    s.NoWedge config := by
  refine ⟨hremain, fun hwedged => ?_⟩
  obtain ⟨home, hinv⟩ := haccounts
  obtain ⟨l, hl⟩ := hwedged.active
  obtain ⟨stat, hstat⟩ := Scheduler.isActive_iff.mp hl
  have hcount := (hinv.active l stat hstat).2
  have hqueued : Scheduler.queuedOf config.numCores s.sched l = [] := by
    unfold Scheduler.queuedOf
    rw [Queues.pool_eq_nil.mpr hwedged.coreQueues]
    rfl
  have hrunning : Scheduler.runningOf config.numCores s.running l = [] := by
    unfold Scheduler.runningOf
    rw [Queues.pool_eq_nil.mpr hwedged.running]
    rfl
  rw [hwedged.queues, hqueued, hrunning] at hcount
  have hpos := hremain l stat hstat
  simp at hcount
  omega

/-- Where a layer is active and none has a tile left, nothing is queued and nothing runs. -/
theorem wedged_of_remain (haccounts : Scheduler.Sound config s.running s.sched)
    (hremain : ∀ l stat, s.sched.activeLayersMap.lookup l = some stat → stat.remainTiles = 0)
    {l : Nat} (hl : s.sched.isActive l) : s.Wedged config := by
  obtain ⟨home, hinv⟩ := haccounts
  have hempty : ∀ l, Scheduler.queuedOf config.numCores s.sched l = [] ∧
      Scheduler.runningOf config.numCores s.running l = [] := by
    intro l
    cases hstat : s.sched.activeLayersMap.lookup l with
    | none => exact hinv.inactive l hstat
    | some stat =>
      have hcount := (hinv.active l stat hstat).2
      rw [hremain l stat hstat] at hcount
      exact ⟨List.length_eq_zero_iff.mp (by omega), List.length_eq_zero_iff.mp (by omega)⟩
  have hpool : ∀ {q : Nat → List Tile}, (∀ l, (Queues.pool config.numCores q).filter
      (Scheduler.ofLayer l) = []) → ∀ core < config.numCores, q core = [] := by
    intro q hnone core hcore
    refine List.eq_nil_iff_forall_not_mem.mpr fun t ht => ?_
    exact List.filter_eq_nil_iff.mp (hnone t.layerId) t (Queues.mem_pool.mpr ⟨core, hcore, ht⟩)
      (by simp [Scheduler.ofLayer])
  refine ⟨fun p => List.eq_nil_iff_forall_not_mem.mpr fun t ht => ?_,
    hpool fun l => (hempty l).1, hpool fun l => (hempty l).2, l, hl⟩
  obtain ⟨hactive, hhome⟩ := hinv.queues p t ht
  obtain ⟨stat, hstat⟩ := Scheduler.isActive_iff.mp hactive
  have hcount := (hinv.active _ stat hstat).2
  have hpos : 0 < (s.sched.executableTileQueue (home t.layerId)).countP
      (Scheduler.ofLayer t.layerId) :=
    List.countP_pos_iff.mpr ⟨t, hhome.symm ▸ ht, by simp [Scheduler.ofLayer]⟩
  rw [hremain _ stat hstat] at hcount
  omega

theorem live_of_eachStep (hloads : Machine.EachStep LoadsLayers h) :
    Board.Live (scheduledIn h) := by
  intro m hm
  obtain ⟨p, hp, hm⟩ := List.mem_flatMap.mp hm
  have hstep := hloads p hp
  cases hact : p.2 with
  | scheduleModel id m' tagged =>
    rw [hact] at hm hstep
    obtain rfl := List.mem_singleton.mp hm
    exact hstep
  | getTile core =>
    rw [hact] at hm
    cases hm
  | finishTile core i =>
    rw [hact] at hm
    cases hm

/-- The state that a run reaches has no layer without tiles. -/
theorem noWedge_of_run (run : Run config .simple h s) (hmodels : ∀ m ∈ scheduledIn h, m.Initialised)
    (hids : ((scheduledIn h).flatMap Model.ids).Nodup) (hloads : Machine.EachStep LoadsLayers h) :
    s.NoWedge config := by
  have hsettled := settled_run run (fun m hm => (hmodels m hm).sound) hids
  exact noWedge_of_remain hsettled.accounts (hsettled.live (live_of_eachStep hloads))

/-- Where each scheduled model has a tile for each of its operations and no operation that is its own
child, every active layer has tiles left between two calls of the simple scheduler. -/
theorem no_wedged_layer (run : Run config .simple h s)
    (hmodels : ∀ m ∈ scheduledIn h, m.Initialised)
    (hids : ((scheduledIn h).flatMap Model.ids).Nodup) (hloads : Machine.EachStep LoadsLayers h) :
    Machine.Always (NoWedge config) h s := by
  induction run with
  | nil => exact ⟨by simp, noWedge_of_run .nil hmodels hids hloads⟩
  | @snoc h t a u run step ih =>
    have hsnoc : scheduledIn (h ++ [(t, a)]) = scheduledIn h ++ a.scheduled := by
      simp [scheduledIn]
    have hlast := noWedge_of_run (run.snoc step) hmodels hids hloads
    rw [hsnoc] at hmodels hids
    rw [List.flatMap_append] at hids
    exact Machine.Always.snoc_iff.mpr ⟨ih (fun m hm => hmodels m (List.mem_append_left _ hm))
      (List.nodup_append.mp hids).1 (Machine.EachStep.snoc_iff.mp hloads).1, hlast⟩

theorem no_wedged_layer_chain : ∃ h s, Run oneCore .simple h s ∧ h.map Prod.snd = chainRun ∧
    Machine.Always (NoWedge oneCore) h s := by
  have hsome : (chainRun.foldlM (step oneCore .simple) (init oneCore)).isSome := by decide +kernel
  obtain ⟨s, hs⟩ := Option.isSome_iff_exists.mp hsome
  obtain ⟨h, hacts, run⟩ := Machine.Run.of_foldlM hs
  have hscheduled : scheduledIn h = [chainModel] := by
    have hmap : scheduledIn h = (h.map Prod.snd).flatMap Act.scheduled := by
      unfold scheduledIn
      rw [List.flatMap_map]
    rw [hmap, hacts]
    rfl
  refine ⟨h, s, run, hacts, no_wedged_layer run ?_ ?_ ?_⟩
  · rw [hscheduled]
    exact fun m hm => List.mem_singleton.mp hm ▸ chainModel_initialised
  · rw [hscheduled]
    decide
  · intro p hp
    have hact : p.2 ∈ chainRun := hacts ▸ List.mem_map_of_mem hp
    have hnoself : chainModel.NoSelf := Graph.Buildable.noSelf (.onnx build_chainNodes) rfl _
    unfold chainRun at hact
    rcases List.mem_cons.mp hact with hact | hact
    · rw [hact]
      exact ⟨hnoself, by decide⟩
    · simp only [List.mem_cons, List.not_mem_nil, or_false] at hact
      rcases hact with hact | hact <;> rw [hact] <;> trivial

/-! ## An attention without tiles -/

/-- A core with a scratchpad of 64 KB and an accumulator of 16 KB. -/
def smallConfig : SimulationConfig where
  numCores := 1
  coreConfig := fun _ => { coreWidth := 8, coreHeight := 8, spadSize := 64, accumSpadSize := 16 }
  dramChannels := 2
  dramReqSize := 32
  precision := 2

/-- 64 heads share the keys of 64 tokens. -/
def multiQuery : Attention where
  config := smallConfig
  id := 21
  inputs := []
  outputs := []
  qLen := 64
  seq := 64
  nh := 64
  nkvh := 1
  dk := 64

/-- Half of the accumulator does not hold the scores of one query. -/
theorem multiQuery_tiles (instructions : Mapping → Tile → Nat → Nat → Option (List Instruction)) :
    multiQuery.initializeTiles instructions = some [] := rfl

/-- A layer of a language model: tensor 0 is the input, 1 to 12 are the weights, 13 and 14 the
caches. -/
def weights : Graph.LayerWeights where
  qkvWeight := 1
  qkvBias := 2
  projWeight := 3
  projBias := 4
  lnWeight := 5
  lnBias := 6
  ffn1Weight := 7
  ffn1Bias := 8
  ffn2Weight := 9
  ffn2Bias := 10
  ffnLnWeight := 11
  ffnLnBias := 12
  caches := [(13, 14)]

/-- The tiles of the operations; operation 21 is the attention. -/
def layerTiles (id : Nat) : List Tile :=
  if id = multiQuery.id then (multiQuery.initializeTiles fun _ _ _ _ => some []).getD []
  else [{ status := .INITIALIZED, layerId := id }]

def languageLayer : Model :=
  { (Graph.buildLanguage 0 15 [weights] fun _ _ => false).toModel layerTiles with language := true }

theorem languageLayer_tagged : languageLayer.Tagged := by
  unfold Model.Tagged languageLayer
  decide

theorem languageLayer_initialised : languageLayer.Initialised :=
  ⟨_, layerTiles, @Graph.Buildable.language 0 15 [weights] (fun _ _ => false) (by decide)
    (by decide), rfl, rfl, rfl⟩

/-- The projection and the cache operation run, and the attention is started. -/
def attentionRun : List Act :=
  [.scheduleModel 0 languageLayer languageLayer_tagged, .getTile 0, .finishTile 0 0, .getTile 0,
    .finishTile 0 0]

/-- The attention is active without a tile, and the simulation does nothing more. -/
theorem wedged_attention : ∃ h s, Run smallConfig .simple h s ∧ h.map Prod.snd = attentionRun ∧
    (∀ m ∈ scheduledIn h, m.Initialised) ∧ ((scheduledIn h).flatMap Model.ids).Nodup ∧
    s.Wedged smallConfig ∧ ¬ Machine.Always (NoWedge smallConfig) h s := by
  have hfacts : (attentionRun.foldlM (step smallConfig .simple) (init smallConfig)).map
      (fun s => (s.sched.activeLayersMap.entries.map (fun e => (e.1, e.2.remainTiles)),
        s.sched.isActive 21)) = some ([(21, 0)], true) := by decide +kernel
  obtain ⟨s, hs, hfacts⟩ := Option.map_eq_some_iff.mp hfacts
  obtain ⟨hfacts, hactive⟩ := Prod.mk.inj hfacts
  obtain ⟨h, hacts, run⟩ := Machine.Run.of_foldlM hs
  have hscheduled : scheduledIn h = [languageLayer] := by
    have hmap : scheduledIn h = (h.map Prod.snd).flatMap Act.scheduled := by
      unfold scheduledIn
      rw [List.flatMap_map]
    rw [hmap, hacts]
    rfl
  have hentries : ∀ l stat, s.sched.activeLayersMap.lookup l = some stat →
      stat.remainTiles = 0 := by
    intro l stat hstat
    have hmem := List.mem_map_of_mem (f := fun e : Sigma fun _ : Nat => LayerStat =>
      (e.1, e.2.remainTiles)) (List.of_mem_dlookup hstat)
    rw [hfacts] at hmem
    simp only [List.mem_singleton, Prod.mk.injEq] at hmem
    exact hmem.2
  have hwedged : s.Wedged smallConfig := wedged_of_remain
    (run.invariant sound_init fun _ _ _ hu hstep => sound_step hu hstep) hentries hactive
  exact ⟨h, s, run, hacts, hscheduled ▸ fun m hm => List.mem_singleton.mp hm ▸
    languageLayer_initialised, hscheduled ▸ by decide, hwedged, fun halways =>
    halways.2.moving hwedged⟩

end System

end OnnxSim
