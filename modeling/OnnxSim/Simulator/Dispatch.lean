import OnnxSim.Core.Held
import OnnxSim.Simulator.Dispatcher
import OnnxSim.Simulator.Parts
import OnnxSim.Simulator.Registered

/-!
# A simulation drives its scheduler

In every run of a simulation the tiles on the cores are tiles that the scheduler has handed out, and the
tiles that the cores have handed back are the ones that the scheduler was told of (`Simulator.Driven`).
The interconnect, the banks and the DRAM change neither. So a run of the simulation is, for its scheduler,
a run of a `Dispatcher` (`Simulator.Run.driven`).
-/

namespace OnnxSim

open Scheduler (anyCore notBar ofLayer)

/-! ## Lists of tiles by their labels -/

/-- An element with a given label is somewhere, and the others are the rest. -/
theorem exists_getElem?_of_label {l rest : List Tile} {t : Tile}
    (h : (l.map Tile.label).Perm (t :: rest)) :
    ∃ i x, l[i]? = some x ∧ x.label = t ∧ ((l.eraseIdx i).map Tile.label).Perm rest := by
  have hmem : t ∈ l.map Tile.label := h.mem_iff.mpr List.mem_cons_self
  obtain ⟨x, hx, rfl⟩ := List.mem_map.mp hmem
  obtain ⟨i, hi⟩ := List.mem_iff_getElem?.mp hx
  obtain ⟨hlt, rfl⟩ := List.getElem?_eq_some_iff.mp hi
  have herase := (List.getElem_cons_eraseIdx_perm hlt).map Tile.label
  exact ⟨i, _, hi, rfl, List.Perm.cons_inv (herase.trans h)⟩

theorem map_label_anyCore (l : List Tile) : (anyCore l).map Tile.label = l.map Tile.label := by
  unfold anyCore
  rw [List.map_map]
  rfl

/-! ## The cores in a step of the memory system -/

namespace BankedSystem

variable {config : SimulationConfig} {s t : BankedSystem} {core : Nat}

/-- What is asked of the calls on a core other than `issue` and `pop_finished_tile`. -/
def Keeps (held : Nat → List Tile) (s : BankedSystem) : Prop :=
  ∀ core, (s.cores core).held.Perm (held core) ∧ (s.cores core).Finished

/-- What a call on one core keeps there, it keeps everywhere. -/
theorem Keeps.update {held : Nat → List Tile} {c : Core} (h : Keeps held s)
    (hc : c.held.Perm (held core)) (hfinished : c.Finished) (i : Nat) :
    (Function.update s.cores core c i).held.Perm (held i) ∧
      (Function.update s.cores core c i).Finished := by
  by_cases hi : i = core
  · subst hi
    rw [Function.update_self]
    exact ⟨hc, hfinished⟩
  · rw [Function.update_of_ne hi]
    exact h i

/-- A call on one core changes what that core holds. -/
theorem Keeps.call {held : Nat → List Tile} {c : Core} {l : List Tile} (h : Keeps held s)
    (hcores : t.cores = Function.update s.cores core c) (hc : c.held.Perm l) (hfinished : c.Finished) :
    Keeps (Function.update held core l) t := by
  intro i
  rw [hcores]
  by_cases hi : i = core
  · subst hi
    rw [Function.update_self, Function.update_self]
    exact ⟨hc, hfinished⟩
  · rw [Function.update_of_ne hi, Function.update_of_ne hi]
    exact h i

theorem kept_keeps (held : Nat → List Tile) : Kept config (Keeps held) where
  answer := fun _ _ _ _ h _ _ => h
  send := fun _ core _ _ _ _ h _ _ _ => h.update (h core).1 (h core).2
  take := fun _ core _ _ _ _ h _ _ hc _ =>
    have hholds := Core.pushMemoryResponse_holds hc
    h.update ((List.Perm.of_eq hholds.held).trans (h core).1) (hholds.finished (h core).2)
  toDram := fun _ _ _ _ h _ _ _ _ => h
  fromDram := fun _ _ _ _ _ h _ _ _ _ => h
  toBank := fun _ _ _ _ h _ _ _ _ => h
  missToDram := fun _ _ _ _ h _ _ _ => h
  wbToDram := fun _ _ _ _ h _ _ _ => h
  dramToBank := fun _ _ _ _ h _ _ _ => h
  fromBank := fun _ _ _ _ _ h _ _ _ _ _ => h
  l2 := fun _ h _ => h
  cycle := fun _ h => h

/-- No other step changes which tiles a core holds. -/
theorem step_keeps {held : Nat → List Tile} {a : Act} (h : Keeps held s)
    (ht : BankedSystem.step config s a = some t) (hissue : ∀ core op, a ≠ .issue core op)
    (hpop : ∀ core, a ≠ .popFinishedTile core) : Keeps held t := by
  apply (kept_keeps held).step ?_ h ht
  rintro core act c - hc (⟨rfl, -⟩ | ⟨-, ha⟩ | ⟨op, -, ha⟩)
  · have hheld := Core.cycle_held (c := { s.cores core with nextAccessId := s.nextAccessId }) hc
    have hfinished := Core.cycle_finished (c := { s.cores core with nextAccessId := s.nextAccessId })
      hc (h core).2
    exact h.update (hheld.trans (h core).1) hfinished
  · exact absurd ha (hpop core)
  · exact absurd ha (hissue core op)

/-- A call on a core. -/
theorem onCore_cases {base base' : MemorySystem} {a : Core.Act}
    (h : MemorySystem.onCore config base core a = some base') :
    ∃ c, Core.step config { base.cores core with nextAccessId := base.nextAccessId } a = some c ∧
      base'.cores = Function.update base.cores core c := by
  unfold MemorySystem.onCore at h
  obtain ⟨c, hc, h⟩ := Option.bind_eq_some_iff.mp h
  obtain rfl := Option.some.inj h
  exact ⟨c, hc, rfl⟩

theorem step_issue {op : Tile} (ht : BankedSystem.step config s (.issue core op) = some t) :
    core < config.numCores ∧ ∃ c : Core, c.held = (s.cores core).held ∧
      (c.Finished ↔ (s.cores core).Finished) ∧
      t.cores = Function.update s.cores core (c.issue op) := by
  obtain ⟨base, hbase, ht⟩ := Option.bind_eq_some_iff.mp ht
  obtain rfl := Option.some.inj ht
  simp only [MemorySystem.step] at hbase
  split at hbase
  · rename_i hcore
    obtain ⟨c, hc, hcores⟩ := onCore_cases hbase
    obtain rfl := Option.some.inj hc
    exact ⟨hcore, { s.cores core with nextAccessId := s.nextAccessId }, rfl, Iff.rfl, hcores⟩
  · cases hbase

theorem step_popFinishedTile
    (ht : BankedSystem.step config s (.popFinishedTile core) = some t) :
    core < config.numCores ∧ ∃ c : Core, c.held = (s.cores core).popFinishedTile.2.held ∧
      (c.Finished ↔ (s.cores core).popFinishedTile.2.Finished) ∧
      t.cores = Function.update s.cores core c := by
  obtain ⟨base, hbase, ht⟩ := Option.bind_eq_some_iff.mp ht
  obtain rfl := Option.some.inj ht
  simp only [MemorySystem.step] at hbase
  split at hbase
  · rename_i hcore
    obtain ⟨c, hc, hcores⟩ := onCore_cases hbase
    obtain rfl := Option.some.inj hc
    exact ⟨hcore, Prod.snd (Core.popFinishedTile { s.cores core with nextAccessId := s.nextAccessId }),
      rfl, Iff.rfl, hcores⟩
  · cases hbase

end BankedSystem

/-! ## Registered models -/

namespace Simulator

variable {sched : SchedulerInterface} {config : SimulationConfig} {s u : Simulator sched}

def Act.registered : Act → List PendingModel
  | .register m _ => [m]
  | _ => []

/-- The models that a run has registered. -/
def registeredIn (h : List (Simulator sched × Act)) : List PendingModel := h.flatMap (·.2.registered)

/-- What is registered builds. -/
def RegistersBuilds (_ : Simulator sched) (a : Act) : Prop := ∀ p ∈ a.registered, p.Builds

/-- What holds of the models that have been scheduled and of those that have not. -/
structure Launches (s : Simulator sched) : Prop where
  builds : ∀ p ∈ s.models, p.Builds
  tagged : ∀ m ∈ s.launchedModels, m.Tagged
  initialised : ∀ m ∈ s.launchedModels, m.Initialised
  nodup : (s.launchedModels.flatMap Model.ids).Nodup
  lt : ∀ id ∈ s.launchedModels.flatMap Model.ids, id < s.nextId

theorem Launches.congr (h : s.Launches) (hmodels : ∀ p ∈ u.models, p.Builds)
    (hlaunched : u.launchedModels = s.launchedModels) (hnext : s.nextId ≤ u.nextId) :
    u.Launches := by
  refine ⟨hmodels, ?_, ?_, ?_, ?_⟩
  · rw [hlaunched]
    exact h.tagged
  · rw [hlaunched]
    exact h.initialised
  · rw [hlaunched]
    exact h.nodup
  · rw [hlaunched]
    exact fun id hid => (h.lt id hid).trans_le hnext

/-- The identifiers of a model that is launched are new. -/
theorem Launches.launch {i : Nat} {pending : PendingModel} {m : { m : Model // m.Tagged }}
    {nextId : Nat} (h : s.Launches) (hi : s.models[i]? = some pending)
    (hm : pending.initializeModel s.nextId = some (m, nextId))
    (hmodels : u.models = s.models.eraseIdx i)
    (hlaunched : u.launchedModels = s.launchedModels ++ [m.val]) (hnext : u.nextId = nextId + 1) :
    u.Launches ∧ s.nextId ≤ nextId := by
  obtain ⟨hinit, hle, hids⟩ := h.builds pending (List.mem_of_getElem? hi) s.nextId m nextId hm
  obtain ⟨init, hsound, -⟩ := hinit.sound
  have hflat : u.launchedModels.flatMap Model.ids =
      s.launchedModels.flatMap Model.ids ++ m.val.ids := by
    rw [hlaunched, List.flatMap_append, List.flatMap_singleton]
  refine ⟨⟨?_, ?_, ?_, ?_, ?_⟩, hle⟩
  · rw [hmodels]
    exact fun p hp => h.builds p (List.mem_of_mem_eraseIdx hp)
  · rw [hlaunched]
    intro m' hm'
    rcases List.mem_append.mp hm' with hm' | hm'
    · exact h.tagged m' hm'
    · exact List.mem_singleton.mp hm' ▸ m.property
  · rw [hlaunched]
    intro m' hm'
    rcases List.mem_append.mp hm' with hm' | hm'
    · exact h.initialised m' hm'
    · exact List.mem_singleton.mp hm' ▸ hinit
  · rw [hflat]
    refine List.nodup_append.mpr ⟨h.nodup, hsound.wired.ids, fun a ha b hb hab => ?_⟩
    have hlt := h.lt a ha
    have hge := (hids b hb).1
    omega
  · rw [hflat]
    intro id hid
    rcases List.mem_append.mp hid with hid | hid
    · have hlt := h.lt id hid
      omega
    · have hlt := (hids id hid).2
      omega

/-- What a step outside `handle_model` leaves alone. -/
structure SameModels (s u : Simulator sched) : Prop where
  models : u.models = s.models
  launched : u.launched = s.launched
  nextId : u.nextId = s.nextId

theorem SameModels.launchedModels (h : SameModels s u) : u.launchedModels = s.launchedModels :=
  congrArg (List.map Prod.snd) h.launched

theorem Launches.same (h : s.Launches) (hsame : SameModels s u) : u.Launches :=
  h.congr (hsame.models ▸ h.builds) hsame.launchedModels hsame.nextId.ge

/-! ## What a step does -/

/-- What a step does, apart from the phase, and what it registers. -/
inductive Effect (config : SimulationConfig) (s : Simulator sched) :
    List PendingModel → Simulator sched → Prop
  | idle {clocks : ClockDomains} {coreCycles : Nat} {phase : Phase} :
    Effect config s [] { s with clocks := clocks, coreCycles := coreCycles, phase := phase }
  | register {m : PendingModel} {drawn : Nat} :
    Effect config s [m] { s with models := s.models ++ [m], nextId := s.nextId + drawn }
  | launch {i : Nat} {pending : PendingModel} {m : { m : Model // m.Tagged }} {nextId : Nat}
      {scheduler : sched.State} (hi : s.models[i]? = some pending)
      (hm : pending.initializeModel s.nextId = some (m, nextId))
      (hsched : sched.scheduleModel s.scheduler nextId m.val = some scheduler) :
    Effect config s [] { s with
      models := s.models.eraseIdx i
      scheduler := scheduler
      nextId := nextId + 1
      launched := s.launched ++ [(pending, m.val)] }
  | memory {a : BankedSystem.Act} {memory : BankedSystem} {phase : Phase}
      (hmem : s.memory.step config a = some memory) (hissue : ∀ core op, a ≠ .issue core op)
      (hpop : ∀ core, a ≠ .popFinishedTile core) :
    Effect config s [] { s with memory := memory, phase := phase }
  | pop {core : Nat} {memory : BankedSystem} {phase : Phase}
      (hmem : s.memory.step config (.popFinishedTile core) = some memory)
      (hstatus : (s.memory.cores core).popFinishedTile.1.status ≠ .FINISH) :
    Effect config s [] { s with memory := memory, phase := phase }
  | finish {core : Nat} {memory : BankedSystem} {scheduler : sched.State} {phase : Phase}
      (hmem : s.memory.step config (.popFinishedTile core) = some memory)
      (hstatus : (s.memory.cores core).popFinishedTile.1.status = .FINISH)
      (hsched : sched.finishTile s.scheduler (s.memory.cores core).popFinishedTile.1.layerId =
        some scheduler) :
    Effect config s [] { s with
      memory := memory
      scheduler := scheduler
      phase := phase
      collected := s.collected ++ [(s.memory.cores core).popFinishedTile.1] }
  | refuse {core : Nat} {tile : Option Tile} {scheduler : sched.State} {phase : Phase}
      (hcore : core < config.numCores)
      (hsched : sched.getTile s.scheduler core = some (tile, scheduler))
      (htile : ∀ x, tile = some x → x.status ≠ .INITIALIZED) :
    Effect config s [] { s with scheduler := scheduler, phase := phase }
  | issue {core : Nat} {tile : Tile} {memory : BankedSystem} {scheduler : sched.State}
      {phase : Phase} (hsched : sched.getTile s.scheduler core = some (some tile, scheduler))
      (hstatus : tile.status = .INITIALIZED)
      (hmem : s.memory.step config (.issue core tile) = some memory) :
    Effect config s [] { s with scheduler := scheduler, memory := memory, phase := phase }

theorem onMemory_eq {a : BankedSystem.Act} (h : onMemory config s a = some u) :
    ∃ memory, s.memory.step config a = some memory ∧ u = { s with memory := memory } := by
  obtain ⟨memory, hmem, h⟩ := Option.bind_eq_some_iff.mp h
  exact ⟨memory, hmem, (Option.some.inj h).symm⟩

theorem collect_effect {core : Nat} {phase : Phase}
    (h : collect config { s with phase := phase } core = some u) : Effect config s [] u := by
  unfold collect at h
  obtain ⟨v, hv, h⟩ := Option.bind_eq_some_iff.mp h
  obtain ⟨memory, hmem, rfl⟩ := onMemory_eq hv
  split at h
  · rename_i hstatus
    obtain ⟨scheduler, hsched, h⟩ := Option.bind_eq_some_iff.mp h
    obtain rfl := Option.some.inj h
    exact .finish hmem hstatus hsched
  · rename_i hstatus
    obtain rfl := Option.some.inj h
    exact .pop hmem hstatus

theorem feed_effect {core : Nat} {phase : Phase} (hcore : core < config.numCores)
    (h : feed config { s with phase := phase } core = some u) : Effect config s [] u := by
  unfold feed at h
  split at h
  · obtain ⟨⟨tile, scheduler⟩, hsched, h⟩ := Option.bind_eq_some_iff.mp h
    cases tile with
    | none =>
      obtain rfl := Option.some.inj h
      exact .refuse hcore hsched fun x hx => nomatch hx
    | some tile =>
      simp only at h
      split at h
      · rename_i hstatus
        obtain ⟨memory, hmem, rfl⟩ := onMemory_eq h
        exact .issue hsched hstatus hmem
      · rename_i hstatus
        obtain rfl := Option.some.inj h
        exact .refuse hcore hsched fun x hx => Option.some.inj hx ▸ hstatus
  · obtain rfl := Option.some.inj h
    exact .idle

/-- The loop over the cores is at one of them. -/
def InLoop (config : SimulationConfig) (s : Simulator sched) : Prop :=
  ∀ core, s.phase = .feed core ∨ s.phase = .tick core → core < config.numCores

theorem Effect.memory_of {a : BankedSystem.Act} {phase : Phase}
    (h : onMemory config { s with phase := phase } a = some u)
    (hissue : ∀ core op, a ≠ .issue core op) (hpop : ∀ core, a ≠ .popFinishedTile core) :
    Effect config s [] u := by
  obtain ⟨memory, hmem, rfl⟩ := onMemory_eq h
  exact .memory hmem hissue hpop

theorem step_effect {a : Act} (hloop : s.InLoop config) (h : step config s a = some u) :
    Effect config s a.registered u := by
  unfold step at h
  cases a with
  | register m drawn => exact Option.some.inj h ▸ .register
  | enter busy =>
    simp only at h
    split at h
    · exact Option.some.inj h ▸ .idle
    · cases h
  | launch i =>
    simp only at h
    split at h
    · unfold launch at h
      obtain ⟨pending, hi, h⟩ := Option.bind_eq_some_iff.mp h
      split at h
      · obtain ⟨⟨m, nextId⟩, hm, h⟩ := Option.bind_eq_some_iff.mp h
        obtain ⟨scheduler, hsched, h⟩ := Option.bind_eq_some_iff.mp h
        exact Option.some.inj h ▸ .launch hi hm hsched
      · cases h
    · cases h
  | launched =>
    simp only at h
    split at h
    · exact Option.some.inj h ▸ .idle
    · cases h
  | collect =>
    simp only at h
    split at h
    · split at h
      · exact collect_effect h
      · cases h
    · cases h
  | feed =>
    simp only at h
    split at h
    · rename_i core hphase
      exact feed_effect (hloop core (.inl hphase)) h
    · cases h
  | tick =>
    simp only at h
    split at h
    · exact .memory_of h (fun _ _ => nofun) fun _ => nofun
    · cases h
  | coresDone =>
    simp only at h
    split at h
    · exact Option.some.inj h ▸ .idle
    · cases h
  | answer channel i =>
    simp only at h
    split at h
    · have hmem : onMemory config { s with phase := s.phase } (.answer channel i) = some u := h
      exact .memory_of hmem (fun _ _ => nofun) fun _ => nofun
    · cases h
  | dram =>
    simp only at h
    split at h
    · split at h
      · exact .memory_of h (fun _ _ => nofun) fun _ => nofun
      · exact Option.some.inj h ▸ .idle
    · cases h
  | icnt full fullWb =>
    simp only at h
    split at h
    · split at h
      · exact .memory_of h (fun _ _ => nofun) fun _ => nofun
      · exact Option.some.inj h ▸ .idle
    · cases h

theorem onMemory_phase {a : BankedSystem.Act} (h : onMemory config s a = some u) :
    u.phase = s.phase := by
  obtain ⟨memory, -, rfl⟩ := onMemory_eq h
  rfl

theorem collect_phase {core : Nat} (h : collect config s core = some u) : u.phase = s.phase := by
  unfold collect at h
  obtain ⟨v, hv, h⟩ := Option.bind_eq_some_iff.mp h
  split at h
  · obtain ⟨scheduler, -, h⟩ := Option.bind_eq_some_iff.mp h
    obtain rfl := Option.some.inj h
    have hphase : v.phase = s.phase := onMemory_phase hv
    exact hphase
  · obtain rfl := Option.some.inj h
    exact onMemory_phase hv

theorem feed_phase {core : Nat} (h : feed config s core = some u) : u.phase = s.phase := by
  unfold feed at h
  split at h
  · obtain ⟨⟨tile, scheduler⟩, -, h⟩ := Option.bind_eq_some_iff.mp h
    cases tile with
    | none => exact (Option.some.inj h) ▸ rfl
    | some tile =>
      simp only at h
      split at h
      · have hphase := onMemory_phase h
        exact hphase
      · exact (Option.some.inj h) ▸ rfl
  · exact (Option.some.inj h) ▸ rfl

theorem InLoop.of_other (h : ∀ core, u.phase ≠ .feed core ∧ u.phase ≠ .tick core) :
    u.InLoop config :=
  fun core hphase => hphase.elim (fun hfeed => absurd hfeed (h core).1)
    fun htick => absurd htick (h core).2

theorem InLoop.step {a : Act} (hloop : s.InLoop config) (h : step config s a = some u) :
    u.InLoop config := by
  unfold Simulator.step at h
  cases a with
  | register m drawn =>
    obtain rfl := Option.some.inj h
    exact hloop
  | enter busy =>
    simp only at h
    split at h
    · obtain rfl := Option.some.inj h
      apply InLoop.of_other
      intro core
      dsimp only
      split <;> exact ⟨nofun, nofun⟩
    · cases h
  | launch i =>
    simp only at h
    split at h
    · unfold launch at h
      obtain ⟨pending, -, h⟩ := Option.bind_eq_some_iff.mp h
      split at h
      · obtain ⟨⟨m, nextId⟩, -, h⟩ := Option.bind_eq_some_iff.mp h
        obtain ⟨scheduler, -, h⟩ := Option.bind_eq_some_iff.mp h
        obtain rfl := Option.some.inj h
        exact hloop
      · cases h
    · cases h
  | launched =>
    simp only at h
    split at h
    · obtain rfl := Option.some.inj h
      exact .of_other fun core => ⟨nofun, nofun⟩
    · cases h
  | collect =>
    simp only at h
    split at h
    · split at h
      · rename_i core _ hcore
        intro i hi
        rw [collect_phase h] at hi
        rcases hi with hi | hi
        · exact Phase.feed.inj hi ▸ hcore
        · cases hi
      · cases h
    · cases h
  | feed =>
    simp only at h
    split at h
    · rename_i core hphase
      intro i hi
      rw [feed_phase h] at hi
      rcases hi with hi | hi
      · cases hi
      · exact Phase.tick.inj hi ▸ hloop core (.inl hphase)
    · cases h
  | tick =>
    simp only at h
    split at h
    · apply InLoop.of_other
      rw [onMemory_phase h]
      exact fun core => ⟨nofun, nofun⟩
    · cases h
  | coresDone =>
    simp only at h
    split at h
    · obtain rfl := Option.some.inj h
      exact .of_other fun core => ⟨nofun, nofun⟩
    · cases h
  | answer channel i =>
    simp only at h
    split at h
    · intro core hphase
      rw [onMemory_phase h] at hphase
      exact hloop core hphase
    · cases h
  | dram =>
    simp only at h
    split at h
    · split at h
      · apply InLoop.of_other
        rw [onMemory_phase h]
        exact fun core => ⟨nofun, nofun⟩
      · obtain rfl := Option.some.inj h
        exact .of_other fun core => ⟨nofun, nofun⟩
    · cases h
  | icnt full fullWb =>
    simp only at h
    split at h
    · split at h
      · apply InLoop.of_other
        rw [onMemory_phase h]
        exact fun core => ⟨nofun, nofun⟩
      · obtain rfl := Option.some.inj h
        exact .of_other fun core => ⟨nofun, nofun⟩
    · cases h

/-! ## The run of the dispatcher -/

section Driven

variable {d : Dispatcher config.numCores sched} {h : List (d.State × System.Act)} {t : d.State}

/-- To its scheduler a simulation is the run `h` of a dispatcher, up to the labels of the tiles: what has
been handed out is on the cores or was not issued, and what has been reported was collected. -/
structure Driven (d : Dispatcher config.numCores sched) (s : Simulator sched)
    (h : List (d.State × System.Act)) (t : d.State) : Prop where
  launches : s.Launches
  inLoop : s.InLoop config
  scheduler : d.scheduler t = s.scheduler
  scheduled : scheduledIn h = s.launchedModels
  nextId : d.nextId t ≤ s.nextId
  handedOut : ∃ held dropped : Nat → List Tile, BankedSystem.Keeps held s.memory ∧
    ∀ core, ((d.running t core).map Tile.label).Perm (held core ++ dropped core)
  reported : ∀ l, ((d.reported t l).map Tile.label).Perm
    ((s.collected.filter (ofLayer l)).map Tile.label)
  known : ∀ x ∈ s.collected, x.layerId ∈ s.launchedModels.flatMap Model.ids

/-- A step that the scheduler does not see. -/
theorem Driven.stay (hd : Driven d s h t) (hsame : SameModels s u)
    (hsched : u.scheduler = s.scheduler) (hcollected : u.collected = s.collected)
    (hkeeps : ∀ held, BankedSystem.Keeps held s.memory → BankedSystem.Keeps held u.memory)
    (hloop : u.InLoop config) :
    ∃ h' t', Machine.Run (Machine.partialDet d.step) t h' t' ∧ Driven d u (h ++ h') t' := by
  refine ⟨[], t, .nil, ?_⟩
  rw [List.append_nil]
  obtain ⟨held, dropped, hheld, hrunning⟩ := hd.handedOut
  exact {
    launches := hd.launches.same hsame
    inLoop := hloop
    scheduler := hsched ▸ hd.scheduler
    scheduled := hsame.launchedModels ▸ hd.scheduled
    nextId := hsame.nextId ▸ hd.nextId
    handedOut := ⟨held, dropped, hkeeps held hheld, hrunning⟩
    reported := hcollected ▸ hd.reported
    known := by
      rw [hcollected, hsame.launchedModels]
      exact hd.known }

theorem Driven.register {m : PendingModel} {drawn : Nat} (hd : Driven d s h t) (hm : m.Builds) :
    Driven d { s with models := s.models ++ [m], nextId := s.nextId + drawn } h t where
  launches := by
    refine hd.launches.congr (fun p hp => ?_) rfl (Nat.le_add_right _ _)
    rcases List.mem_append.mp hp with hp | hp
    · exact hd.launches.builds p hp
    · exact List.mem_singleton.mp hp ▸ hm
  inLoop := hd.inLoop
  scheduler := hd.scheduler
  scheduled := hd.scheduled
  nextId := hd.nextId.trans (Nat.le_add_right _ _)
  handedOut := hd.handedOut
  reported := hd.reported
  known := hd.known

theorem scheduledIn_snoc (a : System.Act) :
    scheduledIn (h ++ [(t, a)]) = scheduledIn h ++ a.scheduled := by
  unfold scheduledIn
  rw [List.flatMap_append, List.flatMap_singleton]

theorem Driven.launch {i : Nat} {pending : PendingModel} {m : { m : Model // m.Tagged }} {nextId : Nat}
    {scheduler : sched.State} (hd : Driven d s h t) (hi : s.models[i]? = some pending)
    (hm : pending.initializeModel s.nextId = some (m, nextId))
    (hsched : sched.scheduleModel s.scheduler nextId m.val = some scheduler) :
    ∃ h' t', Machine.Run (Machine.partialDet d.step) t h' t' ∧ Driven d { s with
      models := s.models.eraseIdx i
      scheduler := scheduler
      nextId := nextId + 1
      launched := s.launched ++ [(pending, m.val)] } (h ++ h') t' := by
  have hmodels : ∀ l : List (PendingModel × Model), (l ++ [(pending, m.val)]).map Prod.snd =
      l.map Prod.snd ++ [m.val] := fun l => by simp
  obtain ⟨hlaunches, hle⟩ := hd.launches.launch (u := { s with
      models := s.models.eraseIdx i
      scheduler := scheduler
      nextId := nextId + 1
      launched := s.launched ++ [(pending, m.val)] }) hi hm rfl (hmodels _) rfl
  rw [← hd.scheduler] at hsched
  obtain ⟨tagged, t', hs, hscheduler, hrunning, hreported, hnext⟩ :=
    d.scheduleModel m.property (hd.nextId.trans hle) hsched
  refine ⟨_, t', .one hs, hlaunches, hd.inLoop, hscheduler, ?_, hnext, ?_, ?_, ?_⟩
  · rw [scheduledIn_snoc, hd.scheduled]
    exact (hmodels _).symm
  · rw [hrunning]
    exact hd.handedOut
  · rw [hreported]
    exact hd.reported
  · intro x hx
    have hknown := hd.known x hx
    have happ : (s.launched ++ [(pending, m.val)]).map Prod.snd = _ := hmodels _
    unfold launchedModels at hknown ⊢
    rw [happ, List.flatMap_append]
    exact List.mem_append_left _ hknown

theorem Driven.finish {core : Nat} {memory : BankedSystem} {scheduler : sched.State} {phase : Phase}
    (hd : Driven d s h t) (run : Machine.Run (Machine.partialDet d.step) d.init h t)
    (hmem : s.memory.step config (.popFinishedTile core) = some memory)
    (hstatus : (s.memory.cores core).popFinishedTile.1.status = .FINISH)
    (hsched : sched.finishTile s.scheduler (s.memory.cores core).popFinishedTile.1.layerId =
      some scheduler)
    (hloop : InLoop config { s with phase := phase }) :
    ∃ h' t', Machine.Run (Machine.partialDet d.step) t h' t' ∧ Driven d { s with
      memory := memory
      scheduler := scheduler
      phase := phase
      collected := s.collected ++ [(s.memory.cores core).popFinishedTile.1] } (h ++ h') t' := by
  obtain ⟨held, dropped, hheld, hrunning⟩ := hd.handedOut
  obtain ⟨hcore, c, hc, hfinished, hcores⟩ := BankedSystem.step_popFinishedTile hmem
  generalize hx : (s.memory.cores core).popFinishedTile.1 = x at hstatus hsched
  -- what has been taken is one of the tiles that are running there
  have htaken : (held core).Perm (x.label :: c.held) := by
    rcases Core.popFinishedTile_held (hheld core).2 with ⟨-, hperm⟩ | ⟨hempty, -⟩
    · rw [hx, ← hc] at hperm
      exact (hheld core).1.symm.trans hperm
    · rw [hx, hstatus] at hempty
      cases hempty
  obtain ⟨i, y, hy, hlabel, herase⟩ := exists_getElem?_of_label
    ((hrunning core).trans (htaken.append_right (dropped core)))
  have hlayer : y.layerId = x.layerId := by
    rw [← Tile.label_layerId y, hlabel, Tile.label_layerId]
  rw [← hlayer, ← hd.scheduler] at hsched
  obtain ⟨t', hs, hscheduler, hnext, hrun, hrep⟩ := d.finishTile hcore hy hsched
  refine ⟨_, t', .one hs, hd.launches.same ⟨rfl, rfl, rfl⟩, hloop, hscheduler, ?_,
    hnext ▸ hd.nextId, ⟨Function.update held core c.held, dropped, ?_, fun j => ?_⟩, fun l => ?_, ?_⟩
  · rw [scheduledIn_snoc]
    exact (List.append_nil _).trans hd.scheduled
  · exact hheld.call hcores .rfl (hfinished.mpr (Core.popFinishedTile_finished (hheld core).2))
  · rw [hrun]
    by_cases hj : j = core
    · subst hj
      rw [Function.update_self, Function.update_self]
      exact herase
    · rw [Function.update_of_ne hj, Function.update_of_ne hj]
      exact hrunning j
  · rw [hrep, List.filter_append]
    by_cases hl : l = x.layerId
    · subst hl
      have hone : [x].filter (ofLayer x.layerId) = [x] := by simp [ofLayer]
      rw [hlayer, Function.update_self, hone, List.map_append, List.map_append, List.map_singleton,
        List.map_singleton, hlabel]
      exact (hd.reported _).append_right _
    · have hnone : [x].filter (ofLayer l) = [] := by simp [ofLayer, Ne.symm hl]
      rw [hlayer, Function.update_of_ne hl, hnone, List.append_nil]
      exact hd.reported l
  · intro z hz
    rcases List.mem_append.mp hz with hz | hz
    · exact hd.known z hz
    · obtain rfl := List.mem_singleton.mp hz
      have hmodels := hd.scheduled ▸ hd.launches.initialised
      have hids := hd.scheduled ▸ hd.launches.nodup
      obtain ⟨m, hm, w, hw, hid, -⟩ := (d.dispatchBooks run hmodels hids).handedOut core hcore y
        (List.mem_of_getElem? hy)
      rw [hd.scheduled] at hm
      exact List.mem_flatMap.mpr ⟨m, hm, Model.mem_ids.mpr ⟨w, hw, hid.trans hlayer⟩⟩

/-- A poll of the scheduler. `issued` are the labels of the tiles that the core is issued then. -/
theorem Driven.poll {core : Nat} {tile : Option Tile} {memory : BankedSystem} {scheduler : sched.State}
    {phase : Phase} (hd : Driven d s h t) (issued : List Tile) (hcore : core < config.numCores)
    (hsched : sched.getTile s.scheduler core = some (tile, scheduler))
    (hkeeps : ∀ held, BankedSystem.Keeps held s.memory →
      BankedSystem.Keeps (Function.update held core (issued ++ held core)) memory)
    (hissued : ∀ given : List Tile, (∀ x, tile = some x → x.status = .INITIALIZED → given = [x]) →
      ∃ l, (given.map Tile.label).Perm (issued ++ l))
    (hloop : InLoop config { s with phase := phase }) :
    ∃ h' t', Machine.Run (Machine.partialDet d.step) t h' t' ∧ Driven d { s with
      scheduler := scheduler, memory := memory, phase := phase } (h ++ h') t' := by
  obtain ⟨held, dropped, hheld, hrunning⟩ := hd.handedOut
  rw [← hd.scheduler] at hsched
  obtain ⟨t', hs, hscheduler, hrep, hnext, given, hsome, -, hrun⟩ := d.getTile hcore hsched
  obtain ⟨l, hgiven⟩ := hissued given hsome
  refine ⟨_, t', .one hs, hd.launches.same ⟨rfl, rfl, rfl⟩, hloop, hscheduler, ?_,
    hnext ▸ hd.nextId, ⟨_, Function.update dropped core (l ++ dropped core), hkeeps held hheld,
      fun j => ?_⟩, hrep ▸ hd.reported, hd.known⟩
  · rw [scheduledIn_snoc]
    exact (List.append_nil _).trans hd.scheduled
  · rw [hrun]
    by_cases hj : j = core
    · subst hj
      rw [Function.update_self, Function.update_self, Function.update_self, List.map_append]
      refine ((hrunning j).append hgiven).trans (List.perm_iff_count.mpr fun x => ?_)
      simp only [List.count_append]
      omega
    · rw [Function.update_of_ne hj, Function.update_of_ne hj, Function.update_of_ne hj]
      exact hrunning j

theorem Driven.step {registered : List PendingModel} (hd : Driven d s h t)
    (run : Machine.Run (Machine.partialDet d.step) d.init h t)
    (hregistered : ∀ p ∈ registered, p.Builds) (heffect : Effect config s registered u)
    (hloop : u.InLoop config) :
    ∃ h' t', Machine.Run (Machine.partialDet d.step) t h' t' ∧ Driven d u (h ++ h') t' := by
  cases heffect with
  | idle => exact hd.stay ⟨rfl, rfl, rfl⟩ rfl rfl (fun _ hheld => hheld) hloop
  | register =>
    refine ⟨[], t, .nil, ?_⟩
    rw [List.append_nil]
    exact hd.register (hregistered _ List.mem_cons_self)
  | launch hi hm hsched => exact hd.launch hi hm hsched
  | memory hmem hissue hpop =>
    exact hd.stay ⟨rfl, rfl, rfl⟩ rfl rfl
      (fun _ hheld => BankedSystem.step_keeps hheld hmem hissue hpop) hloop
  | @pop core memory phase hmem hstatus =>
    refine hd.stay ⟨rfl, rfl, rfl⟩ rfl rfl (fun held hheld => ?_) hloop
    obtain ⟨-, c, hc, hfinished, hcores⟩ := BankedSystem.step_popFinishedTile hmem
    have hsame : c.held = (s.memory.cores core).held := by
      rcases Core.popFinishedTile_held (hheld core).2 with ⟨hfinish, -⟩ | ⟨-, -, hsame⟩
      · exact absurd hfinish hstatus
      · exact hc.trans hsame
    have hcall := hheld.call hcores ((List.Perm.of_eq hsame).trans (hheld core).1)
      (hfinished.mpr (Core.popFinishedTile_finished (hheld core).2))
    rwa [Function.update_eq_self] at hcall
  | finish hmem hstatus hsched => exact hd.finish run hmem hstatus hsched hloop
  | @refuse core tile scheduler phase hcore hsched htile =>
    refine hd.poll [] hcore hsched (fun held hheld => ?_) (fun given _ => ?_) hloop
    · rw [List.nil_append, Function.update_eq_self]
      exact hheld
    · exact ⟨_, .rfl⟩
  | @issue core tile memory scheduler phase hsched hstatus hmem =>
    obtain ⟨hcore, c, hc, hfinished, hcores⟩ := BankedSystem.step_issue hmem
    refine hd.poll [tile.label] hcore hsched (fun held hheld => ?_) (fun given hgiven => ?_)
      hloop
    · refine hheld.call hcores ?_ (Core.issue_finished (hfinished.mpr (hheld core).2))
      have hheld' : c.held.Perm (held core) := (List.Perm.of_eq hc).trans (hheld core).1
      exact (Core.issue_held c tile).trans (hheld'.cons _)
    · rw [hgiven tile rfl hstatus]
      exact ⟨[], .rfl⟩

end Driven

/-- A run of a simulation is, for its scheduler, the run of a dispatcher. -/
theorem Run.driven {h : List (Simulator sched × Act)} (d : Dispatcher config.numCores sched)
    (run : Run sched config h s) (hregister : Machine.EachStep RegistersBuilds h) :
    ∃ h' t, Machine.Run (Machine.partialDet d.step) d.init h' t ∧ Driven d s h' t := by
  obtain ⟨latency, layerId, fusedOpId, periods, cycleMask, run⟩ := run
  obtain ⟨hscheduler, hrunning, hreported, hnext⟩ := d.init_eq
  refine run.simulate (R := fun s h t => Driven d s h t) ?_ ?_ hregister
  · exact {
      launches := ⟨fun p hp => (nomatch hp), fun m hm => (nomatch hm), fun m hm => (nomatch hm),
        List.nodup_nil, fun id hid => (nomatch hid)⟩
      inLoop := InLoop.of_other fun core => ⟨nofun, nofun⟩
      scheduler := hscheduler
      scheduled := rfl
      nextId := hnext.le
      handedOut := ⟨fun _ => [], fun _ => [], fun core => ⟨.rfl, fun t ht => (nomatch ht)⟩,
        fun core => by rw [hrunning]; rfl⟩
      reported := fun l => by rw [hreported]; rfl
      known := fun x hx => nomatch hx }
  · intro s a u h' t hrun hd ha hs
    exact hd.step hrun ha (step_effect hd.inLoop hs) (hd.inLoop.step hs)

end Simulator

end OnnxSim
