import OnnxSim.Scheduler.Accounts

/-!
# Barriers

A barrier tile of a layer is to wait until every tile before it has been reported finished. The
scheduler pops it when all tiles that it has handed out are finished. The tiles before the barrier
that still lie in the queue of some core have not been handed out, and nothing waits for them: a
pop is safe exactly when no core queue holds a tile of the layer, and a run keeps its barriers
exactly when all its pops find the core queues clear (`barrier_safety_iff`).
-/

namespace OnnxSim

namespace Scheduler

variable {config : SimulationConfig} {running : Nat → List Tile} {s s' : Scheduler}

/-! ## Barriers in the order of a layer -/

/-- Every tile before a popped barrier of its layer has been reported. -/
def BarrierSafe (s : Scheduler) : Prop :=
  ∀ l pre bar post, s.taken l = pre ++ bar :: post → bar.status = .BAR →
    (pre.filter notBar).Subperm (s.reported l)

/-- Where a list with a new last element is split. -/
theorem snoc_eq_split {xs pre post : List Tile} {x b : Tile} (h : xs ++ [x] = pre ++ b :: post) :
    (post = [] ∧ pre = xs ∧ b = x) ∨ ∃ post', post = post' ++ [x] ∧ xs = pre ++ b :: post' := by
  rcases List.eq_nil_or_concat post with rfl | ⟨post', y, rfl⟩
  · obtain ⟨rfl, hb⟩ := List.append_inj' h rfl
    exact .inl ⟨rfl, rfl, (List.singleton_inj.mp hb).symm⟩
  · have hassoc : pre ++ b :: (post' ++ [y]) = (pre ++ b :: post') ++ [y] := by simp
    rw [List.concat_eq_append, hassoc] at h
    obtain ⟨rfl, hy⟩ := List.append_inj' h rfl
    exact .inr ⟨post', by rw [List.concat_eq_append, List.singleton_inj.mp hy], rfl⟩

/-- A tile that is no barrier may join the tiles taken. -/
theorem BarrierSafe.snoc {tile : Tile} (h : s.BarrierSafe) (hbar : tile.status ≠ .BAR)
    (htaken : s'.taken = Function.update s.taken tile.layerId (s.taken tile.layerId ++ [tile]))
    (hreported : s'.reported = s.reported) : s'.BarrierSafe := by
  intro l pre bar post hsplit hstatus
  rw [htaken] at hsplit
  rw [hreported]
  by_cases hl : l = tile.layerId
  · subst hl
    rw [Function.update_self] at hsplit
    rcases snoc_eq_split hsplit with ⟨-, -, rfl⟩ | ⟨post', -, hold⟩
    · exact absurd hstatus hbar
    · exact h _ pre bar post' hold hstatus
  · rw [Function.update_of_ne hl] at hsplit
    exact h l pre bar post hsplit hstatus

theorem BarrierSafe.issueTile {remap : Nat → Nat} {offset p : Nat} {tile : Tile}
    (hsound : Sound config running s) (h : s.BarrierSafe) (hlands : Lands config remap offset)
    (hbar : tile.status ≠ .BAR) (hs : issueTile config remap offset p s tile = some s') :
    s'.BarrierSafe := by
  obtain ⟨home, hinv⟩ := hsound
  obtain ⟨core, pq, tileNum, insNum, -, -, rfl⟩ := issueTile_eq_some hinv.pq hlands hs
  have hbar' : (tile.onCore core).status ≠ .BAR := hbar
  exact h.snoc hbar' rfl rfl

theorem BarrierSafe.report (h : s.BarrierSafe) (tile : Tile) : (s.report tile).BarrierSafe := by
  intro l pre bar post hsplit hstatus
  have hreported : (s.report tile).reported l = s.reported l ++ [tile].filter (ofLayer l) :=
    update_snoc s.reported tile l
  rw [hreported]
  exact (h l pre bar post hsplit hstatus).trans (List.sublist_append_left _ _).subperm
end Scheduler

namespace System

open Scheduler

variable {config : SimulationConfig} {type : SchedulerType} {s u : System} {a : Act}

/-- If the step pops a barrier, every tile before it in the layer's list has been reported. -/
def PopSafe (config : SimulationConfig) (s : System) (a : Act) : Prop :=
  ∀ core bar, a = .getTile core → PopsBar config s core bar →
    ((s.sched.taken bar.layerId).filter notBar).Subperm (s.sched.reported bar.layerId)

/-- If the step pops a barrier, no core queue holds a tile of its layer. -/
def QueuesClear (config : SimulationConfig) (s : System) (a : Act) : Prop :=
  ∀ core bar, a = .getTile core → PopsBar config s core bar →
    ∀ core' < config.numCores, ∀ t ∈ s.sched.coreExecutableTileQueue core',
      t.layerId ≠ bar.layerId

/-- When a barrier is popped, no tile of its layer is running. -/
theorem PopsBar.runningOf_eq_nil {core : Nat} {bar : Tile} (h : PopsBar config s core bar)
    (hsound : Sound config s.running s.sched) :
    runningOf config.numCores s.running bar.layerId = [] := by
  obtain ⟨home, hinv⟩ := hsound
  obtain ⟨rest, hfront⟩ := h.front
  obtain ⟨hactive, -⟩ := hinv.queues _ bar (hfront ▸ List.mem_cons_self)
  obtain ⟨stat, hstat⟩ := isActive_iff.mp hactive
  obtain ⟨hlaunched, -⟩ := hinv.active _ stat hstat
  have hall := h.allFinished
  rw [layerStat_eq hstat] at hall
  exact List.length_eq_zero_iff.mp (by omega)

/-- A pop is safe exactly when it finds the core queues clear of the layer. -/
theorem popSafe_iff (hsound : Sound config s.running s.sched) :
    PopSafe config s a ↔ QueuesClear config s a := by
  have hone : ∀ core bar, PopsBar config s core bar →
      (((s.sched.taken bar.layerId).filter notBar).Subperm (s.sched.reported bar.layerId) ↔
        ∀ core' < config.numCores, ∀ t ∈ s.sched.coreExecutableTileQueue core',
          t.layerId ≠ bar.layerId) := by
    intro core bar hbar
    have hrunning := hbar.runningOf_eq_nil hsound
    obtain ⟨home, hinv⟩ := hsound
    -- the tiles taken are those queued and those reported
    have hperm : ((s.sched.taken bar.layerId).filter notBar).Perm
        (queuedOf config.numCores s.sched bar.layerId ++ s.sched.reported bar.layerId) := by
      refine List.perm_iff_count.mpr fun t => ?_
      have hlocated := hinv.located bar.layerId t
      rw [hrunning, List.count_nil] at hlocated
      rw [List.count_append]
      omega
    have hclear : queuedOf config.numCores s.sched bar.layerId = [] ↔
        ∀ core' < config.numCores, ∀ t ∈ s.sched.coreExecutableTileQueue core',
          t.layerId ≠ bar.layerId := by
      unfold queuedOf
      rw [List.filter_eq_nil_iff]
      constructor
      · intro hnone core' hcore' t ht heq
        exact hnone t (Queues.mem_pool.mpr ⟨core', hcore', ht⟩) (by simp [ofLayer, heq])
      · intro hall t ht heq
        obtain ⟨core', hcore', ht⟩ := Queues.mem_pool.mp ht
        exact hall core' hcore' t ht (by simpa [ofLayer] using heq)
    rw [← hclear]
    constructor
    · intro hsub
      have hle := hsub.length_le
      rw [hperm.length_eq, List.length_append] at hle
      exact List.length_eq_zero_iff.mp (by omega)
    · intro hnone
      rw [hnone, List.nil_append] at hperm
      exact hperm.subperm
  constructor
  · intro hsafe core bar ha hbar
    exact (hone core bar hbar).mp (hsafe core bar ha hbar)
  · intro hclear core bar ha hbar
    exact (hone core bar hbar).mpr (hclear core bar ha hbar)

theorem barrierSafe_init : (init config).sched.BarrierSafe := by
  intro l pre bar post hsplit
  simp [init, Scheduler.init] at hsplit

theorem barrierSafe_popBar {bar : Tile} (h : s.sched.BarrierSafe) (p : Nat)
    (hpop : ((s.sched.taken bar.layerId).filter notBar).Subperm (s.sched.reported bar.layerId)) :
    (s.sched.popBar p bar).BarrierSafe := by
  intro l pre b post hsplit hstatus
  have hreported : (s.sched.popBar p bar).reported = s.sched.reported := rfl
  rw [hreported]
  by_cases hl : l = bar.layerId
  · subst hl
    have htaken : (s.sched.popBar p bar).taken bar.layerId =
        s.sched.taken bar.layerId ++ [bar] := Function.update_self _ _ _
    rw [htaken] at hsplit
    rcases snoc_eq_split hsplit with ⟨-, rfl, -⟩ | ⟨post', -, hold⟩
    · exact hpop
    · exact h _ pre b post' hold hstatus
  · have htaken : (s.sched.popBar p bar).taken l = s.sched.taken l := Function.update_of_ne hl _ _
    exact h l pre b post (htaken ▸ hsplit) hstatus

/-- A step whose pop is safe keeps the barriers. -/
theorem barrierSafe_step (hsound : Sound config s.running s.sched) (h : s.sched.BarrierSafe)
    (hsafe : PopSafe config s a) (hs : step config type s a = some u) : u.sched.BarrierSafe := by
  refine (step_keeps (P := BarrierSafe) ?_ ?_ ?_ ?_ hsound h hs).2
  · intro s s' htaken hreported h l pre bar post hsplit hstatus
    rw [hreported]
    exact h l pre bar post (htaken ▸ hsplit) hstatus
  · exact fun _ _ _ _ _ _ _ _ hsound h hlands _ hbar hs => h.issueTile hsound hlands hbar hs
  · exact fun _ tile h => h.report tile
  · exact fun core bar ha hbar => barrierSafe_popBar h _ (hsafe core bar ha hbar)

/-- Where the barriers have been kept, the tiles of a layer that are queued or running are among
those taken after the last barrier popped, and in particular none of those before it. -/
theorem queued_after_barrier (hsound : Sound config s.running s.sched) (h : s.sched.BarrierSafe)
    {l : Nat} {pre post : List Tile} {bar : Tile} (hsplit : s.sched.taken l = pre ++ bar :: post)
    (hstatus : bar.status = .BAR) :
    (queuedOf config.numCores s.sched l ++ runningOf config.numCores s.running l).Subperm
      (post.filter notBar) := by
  obtain ⟨home, hinv⟩ := hsound
  refine List.subperm_ext_iff.mpr fun t _ => ?_
  have hbefore := (List.subperm_ext_iff.mp (h l pre bar post hsplit hstatus)) t
  have hlocated := hinv.located l t
  have hnone : [bar].filter notBar = [] := by simp [notBar, hstatus]
  rw [hsplit, ← List.singleton_append, List.filter_append, List.filter_append, hnone,
    List.nil_append, List.count_append] at hlocated
  rw [List.count_append]
  by_cases ht : t ∈ pre.filter notBar
  · have hle := hbefore ht
    omega
  · rw [List.count_eq_zero_of_not_mem ht] at hlocated
    omega

/-- The barriers of every layer have held: the tiles before them have all been reported, and those
queued or running come after them. -/
structure BarriersKept (config : SimulationConfig) (s : System) : Prop where
  before : s.sched.BarrierSafe
  after : ∀ l pre bar post, s.sched.taken l = pre ++ bar :: post → bar.status = .BAR →
    (queuedOf config.numCores s.sched l ++ runningOf config.numCores s.running l).Subperm
      (post.filter notBar)

/-- In a run, every barrier is popped after all tiles before it have been reported, and holds from
then on, exactly when every pop finds the core queues clear of the barrier's layer. -/
theorem barrier_safety_iff {h : List (System × Act)} (run : Run config type h s) :
    Machine.Always (BarriersKept config) h s ∧ Machine.EachStep (PopSafe config) h ↔
      Machine.EachStep (QueuesClear config) h := by
  have hinit : BarriersKept config (init config) := by
    refine ⟨barrierSafe_init, fun l pre bar post hsplit => ?_⟩
    simp [init, Scheduler.init] at hsplit
  refine Machine.Run.always_iff_eachStep (I := fun s => Sound config s.running s.sched) run
    sound_init (fun _ _ _ hI hs => sound_step hI hs) hinit ?_
  intro s a u hI hP hs
  constructor
  · rintro ⟨-, hsafe⟩
    exact (popSafe_iff hI).mp hsafe
  · intro hclear
    have hsafe := (popSafe_iff hI).mpr hclear
    have hbefore := barrierSafe_step hI hP.before hsafe hs
    exact ⟨⟨hbefore, fun _ _ _ _ => queued_after_barrier (sound_step hI hs) hbefore⟩, hsafe⟩

/-- A layer of one tile, and after it a layer of two tiles with a barrier between them. -/
def barrierModel : Model :=
  { tensorMap := fun t => if t = 10 then { childNodes := [2] } else {}
    operationMap :=
      [{ id := 1, outputs := [10], tiles := [{ status := .INITIALIZED, layerId := 1 }] },
        { id := 2, inputs := [10], tiles := [{ status := .INITIALIZED, layerId := 2 },
          { status := .BAR, layerId := 2 }, { status := .INITIALIZED, layerId := 2 }] }]
    executableLayer := [1] }

theorem barrierModel_tagged : barrierModel.Tagged := by
  unfold Model.Tagged barrierModel
  decide

/-- Core 0 runs the first layer. The first tile of the second one is sent to core 1, which has had
no tile, and core 0 polls before core 1 does. -/
def barrierCalls : List Act :=
  [.scheduleModel 0 barrierModel barrierModel_tagged, .getTile 0, .finishTile 0 0, .getTile 0]

def twoCores : SimulationConfig := { numCores := 2, dramChannels := 1, dramReqSize := 32 }

/-- The barrier is popped while the tile before it waits in the queue of core 1. -/
theorem barrierCalls_pop_early : ¬ ∀ (config : SimulationConfig) (type : SchedulerType)
    (h : List (System × Act)) (s : System), Run config type h s →
      Machine.Always (BarriersKept config) h s ∧ Machine.EachStep (PopSafe config) h := by
  intro hall
  have hend : (barrierCalls.foldlM (step twoCores .simple) (init twoCores)).map
      (fun s => ((s.sched.taken 2).map Tile.status, (s.sched.reported 2).length)) =
      some ([.INITIALIZED, .BAR, .INITIALIZED], 0) := by decide +kernel
  obtain ⟨s, hs, hend⟩ := Option.map_eq_some_iff.mp hend
  obtain ⟨htaken, hreported⟩ := Prod.mk.inj hend
  obtain ⟨h, -, run⟩ := Machine.Run.of_foldlM hs
  obtain ⟨t, rest, hsplit, ht, hrest⟩ := List.map_eq_cons_iff.mp htaken
  obtain ⟨bar, post, rfl, hbar, -⟩ := List.map_eq_cons_iff.mp hrest
  have hle := ((hall twoCores .simple h s run).1.2.before 2 [t] bar post hsplit hbar).length_le
  rw [hreported] at hle
  simp [notBar, ht] at hle

/-- The criterion for that run. -/
theorem barrier_safety_iff_twoCores : ∃ (h : List (System × Act)) (s : System),
    h.map Prod.snd = barrierCalls ∧ Run twoCores .simple h s ∧
    (Machine.Always (BarriersKept twoCores) h s ∧ Machine.EachStep (PopSafe twoCores) h ↔
      Machine.EachStep (QueuesClear twoCores) h) := by
  have hsome : (barrierCalls.foldlM (step twoCores .simple) (init twoCores)).isSome := by
    decide +kernel
  obtain ⟨s, hs⟩ := Option.isSome_iff_exists.mp hsome
  obtain ⟨h, hacts, run⟩ := Machine.Run.of_foldlM hs
  have run' : Run twoCores .simple h s := run
  exact ⟨h, s, hacts, run', barrier_safety_iff run'⟩

end System

end OnnxSim
