import OnnxSim.Language.Lifecycle
import OnnxSim.Scheduler.Departures

/-!
# The simulator in language mode

`Simulator` of `Simulator.cc` with a language scheduler, the heap of models and one of the four
hardware schedulers. The language models that are in flight are those in the heap, in the queue of
requests, and those that have left it without being reported (`LangSimulator.Inv`): only the simple
scheduler reports them (`LangSimulator.language_models_reported_iff`).
-/

namespace OnnxSim

/-- A hardware scheduler: its steps move models as its ledger says. -/
structure Hardware where
  State : Type
  init : State
  step : State → System.Act → Option State
  ledger : State → Ledger
  /-- Whether it calls `finish_language_model`. -/
  reports : Bool
  init_ledger : ledger init = {}
  step_moves : ∀ {s a u}, step s a = some u → Ledger.Moves reports a.scheduled (ledger s) (ledger u)

/-- `scheduler_type`. -/
inductive HardwareType
  | queues (type : SchedulerType)
  | spatialSplit
  deriving Repr, DecidableEq

/-- `Scheduler::create`. -/
def Hardware.create (config : SimulationConfig) : HardwareType → Hardware
  | .queues type =>
    { State := System
      init := System.init config
      step := System.step config type
      ledger := fun s => s.sched.ledger
      reports := Scheduler.reports type
      init_ledger := rfl
      step_moves := System.step_moves }
  | .spatialSplit =>
    { State := HalfSystem
      init := {}
      step := HalfSystem.step config
      ledger := fun s => s.sched.ledger
      reports := false
      init_ledger := rfl
      step_moves := HalfSystem.step_moves }

/-- The simple scheduler reports, and no other. -/
theorem Hardware.create_reports (config : SimulationConfig) (type : HardwareType) :
    (Hardware.create config type).reports = true ↔ type = .queues .simple := by
  cases type with
  | queues type => simp [create, Scheduler.reports]
  | spatialSplit => simp [create]

structure LangSimulator (hw : Hardware) where
  lang : LangScheduler
  /-- `_models`: the models that wait for their time. -/
  models : List { m : Model // m.Tagged } := []
  sched : hw.State

namespace LangSimulator

/-- The calls in `Simulator::cycle` and `handle_model`, in any order. -/
inductive Act
  | cycle
  /-- The next model of the language scheduler enters the heap; `m` is what `initialize_model` will
  make of it. -/
  | popModel (m : { m : Model // m.Tagged })
  | registerModel (m : { m : Model // m.Tagged })
  | scheduleModel (i requestId : Nat)
  | getTile (core : Nat)
  | finishTile (core i : Nat)

variable {hw : Hardware}

def init (hw : Hardware) (trace : List TraceRow) : LangSimulator hw where
  lang := LangScheduler.init trace
  sched := hw.init

/-- A step of the hardware scheduler, with its calls of `finish_language_model`. -/
def stepHardware (config : LangConfig) (s : LangSimulator hw) (a : System.Act) :
    Option (LangSimulator hw) := do
  let sched ← hw.step s.sched a
  let calls := (hw.ledger sched).calls.drop (hw.ledger s.sched).calls.length
  let lang ← calls.foldlM (LangScheduler.finishModel config) s.lang
  some { s with lang := lang, sched := sched }

def step (config : LangConfig) (s : LangSimulator hw) : Act → Option (LangSimulator hw)
  | .cycle => some { s with lang := s.lang.cycle config }
  | .popModel m => do
    let (model, lang) ← s.lang.popModel
    if m.val.languageId = some model.id then some { s with lang := lang, models := s.models ++ [m] }
    else none
  | .registerModel m =>
    if m.val.language then none else some { s with models := s.models ++ [m] }
  | .scheduleModel i requestId => do
    let m ← s.models[i]?
    let s := { s with models := s.models.eraseIdx i }
    stepHardware config s (.scheduleModel requestId m.val m.property)
  | .getTile core => stepHardware config s (.getTile core)
  | .finishTile core i => stepHardware config s (.finishTile core i)

def Run (config : LangConfig) (trace : List TraceRow) (h : List (LangSimulator hw × Act))
    (s : LangSimulator hw) : Prop :=
  Machine.Run (Machine.partialDet (step config)) (init hw trace) h s

/-- The language models in the heap. -/
def waiting (s : LangSimulator hw) : List Nat := languageIds (s.models.map (·.val))

/-- The language models in the queue of the hardware scheduler. -/
def queued (s : LangSimulator hw) : List Nat := languageIds (hw.ledger s.sched).queue

/-- The language models that have left the queue of the hardware scheduler. -/
def gone (s : LangSimulator hw) : List Nat := languageIds (hw.ledger s.sched).left

/-- `finish_model` has been called once for each language model that has left the queue, with its
id. -/
def Reported (s : LangSimulator hw) : Prop := (hw.ledger s.sched).calls = s.gone

/-- The model of a request that runs is in the model queue, in the heap or in the queue of the
hardware scheduler. -/
def Located (s : LangSimulator hw) : Prop :=
  ∀ r ∈ s.lang.activeRequests, r.running = true → ∃ id ids,
    s.lang.requestsInModel.lookup id = some ids ∧ r.requestId ∈ ids ∧
      (id ∈ s.lang.modelQueue.map (·.id) ∨ id ∈ s.waiting ∨ id ∈ s.queued)

/-! ## The models in flight -/

open LangSystem (requestIds)

variable {config : LangConfig} {rows : List TraceRow} {s u : LangSimulator hw}

/-- The language scheduler's side: the models in flight are those with identifiers `ids`. -/
structure InFlight (config : LangConfig) (rows : List TraceRow) (lang : LangScheduler)
    (ids : List Nat) (t : LangSystem) : Prop where
  lang_eq : t.lang = lang
  inv : LangSystem.Inv config rows t
  nonempty : ∀ m ∈ t.models, m.reqs ≠ []
  ids : (t.inFlight.map (·.id)).Perm ids

/-- The invariant of the runs: the language models in flight are in the heap, in the queue, or have
left without a report; and the calls are for those that have left, where there are any. -/
structure Inv (config : LangConfig) (rows : List TraceRow) (s : LangSimulator hw) : Prop where
  inFlight : ∃ t, InFlight config rows s.lang
    (s.waiting ++ s.queued ++ if hw.reports then [] else s.gone) t
  calls : (hw.ledger s.sched).calls = if hw.reports then s.gone else []

theorem init_inv : Inv config rows (init hw rows) := by
  have hledger : hw.ledger (init hw rows).sched = {} := hw.init_ledger
  have hnone : (if hw.reports then [] else (init hw rows).gone) = [] := by
    unfold gone
    rw [hledger]
    split <;> rfl
  refine ⟨⟨LangSystem.init rows, rfl, LangSystem.init_inv, fun m hm => (nomatch hm), ?_⟩, ?_⟩
  · rw [hnone]
    unfold waiting queued
    rw [hledger]
    rfl
  · unfold gone
    rw [hledger]
    split <;> rfl

theorem activate_modelQueue {lang : LangScheduler} (queue : List LangRequest) :
    (lang.activate config queue).modelQueue = lang.modelQueue :=
  LangScheduler.activate_induction (s := lang) (Q := fun l => l.modelQueue = lang.modelQueue)
    (fun _ _ _ hQ => hQ) rfl

/-- A new model has requests. -/
theorem cycle_nonempty {lang : LangScheduler} (h : ∀ m ∈ lang.modelQueue, m.reqs ≠ []) :
    ∀ m ∈ (lang.cycle config).modelQueue, m.reqs ≠ [] := by
  have hactivated : ∀ l,
      l = (if ({ lang with cycles := lang.cycles + 1 } : LangScheduler).activates config then
        LangScheduler.activate config { lang with cycles := lang.cycles + 1 } lang.requestQueue
      else { lang with cycles := lang.cycles + 1 }) → l.modelQueue = lang.modelQueue := by
    rintro l rfl
    split
    · exact activate_modelQueue _
    · rfl
  unfold LangScheduler.cycle
  simp only
  generalize hl : (if ({ lang with cycles := lang.cycles + 1 } : LangScheduler).activates config
    then _ else _) = l
  have hqueue := hactivated l hl.symm
  split
  · unfold LangScheduler.initInputsAndModel
    simp only
    split
    · rwa [hqueue]
    · rename_i hbatch
      intro m hm
      rcases List.mem_append.mp hm with hm | hm
      · exact h m (hqueue ▸ hm)
      · obtain rfl := List.mem_singleton.mp hm
        simpa using hbatch
  · rwa [hqueue]

theorem InFlight.cycle {lang : LangScheduler} {ids : List Nat} {t : LangSystem}
    (h : InFlight config rows lang ids t) :
    InFlight config rows (lang.cycle config) ids { t with lang := t.lang.cycle config } := by
  refine ⟨congrArg (LangScheduler.cycle config) h.lang_eq, h.inv.cycle, fun m hm => ?_, h.ids⟩
  rcases List.mem_append.mp hm with hm | hm
  · exact cycle_nonempty (fun m hm => h.nonempty m (List.mem_append_left _ hm)) m hm
  · exact h.nonempty m (List.mem_append_right _ hm)

theorem InFlight.popModel {lang lang' : LangScheduler} {ids : List Nat} {t : LangSystem}
    {m : LangModel} (h : InFlight config rows lang ids t) (hpop : lang.popModel = some (m, lang')) :
    ∃ t', InFlight config rows lang' (ids ++ [m.id]) t' := by
  obtain ⟨rfl, hinv, hnonempty, hids⟩ := h
  refine ⟨_, rfl, hinv.popModel hpop, ?_, ?_⟩
  · unfold LangScheduler.popModel at hpop
    split at hpop
    · cases hpop
    · rename_i m' rest hqueue
      obtain ⟨rfl, rfl⟩ := Prod.mk.inj (Option.some.inj hpop)
      intro q hq
      refine hnonempty q ?_
      simp only [LangSystem.models, List.mem_append, List.mem_singleton] at hq ⊢
      rw [hqueue, List.mem_cons]
      tauto
  · rw [List.map_append]
    exact hids.append_right _

/-- A model in flight finishes. -/
theorem InFlight.finishModel {lang lang' : LangScheduler} {id : Nat} {ids : List Nat}
    {t : LangSystem} (h : InFlight config rows lang (id :: ids) t)
    (hfinish : lang.finishModel config id = some lang') :
    ∃ t', InFlight config rows lang' ids t' := by
  obtain ⟨rfl, hinv, hnonempty, hids⟩ := h
  obtain ⟨m, hm, rfl⟩ := List.mem_map.mp (hids.mem_iff.mpr List.mem_cons_self)
  obtain ⟨i, hi⟩ := List.mem_iff_getElem?.mp hm
  obtain ⟨rfl, hflight, hqueue⟩ := hinv.inFlight_eq hi
  refine ⟨_, rfl, hinv.finishModel hi hfinish, fun q hq => ?_, ?_⟩
  · -- the finished model was the only one
    have hnone := (hinv.finishModel hi hfinish).listed
    obtain ⟨u, hu, hlang⟩ := Option.bind_eq_some_iff.mp hfinish
    obtain rfl := Option.some.inj hlang
    have hmodels : t.models = [m] := by
      unfold LangSystem.models
      rw [hqueue, hflight, List.nil_append]
    have hlookup : t.lang.requestsInModel.lookup m.id = some (requestIds m) := by
      unfold AList.lookup
      rw [hinv.listed, hmodels]
      simp
    have hrunning := hinv.running
    rw [hmodels, List.flatMap_singleton] at hrunning
    rw [hlookup, Option.getD_some] at hu
    obtain ⟨-, -, -, hqueue', -⟩ := LangScheduler.finishRequests hinv.account hrunning hu
    simp [LangSystem.models, hflight, hqueue', hqueue] at hq
  · have hone := hids.length_eq
    rw [hflight] at hone ⊢
    have hempty : ids = [] := List.length_eq_zero_iff.mp (by simpa using hone.symm)
    rw [hempty]
    rfl

/-- All the models that are reported finish, none of which the language scheduler does not know. -/
theorem InFlight.finishModels {lang : LangScheduler} {calls ids : List Nat} {t : LangSystem}
    (h : InFlight config rows lang (calls ++ ids) t) :
    ∃ lang' t', calls.foldlM (LangScheduler.finishModel config) lang = some lang' ∧
      InFlight config rows lang' ids t' := by
  induction calls generalizing lang t with
  | nil => exact ⟨lang, t, rfl, h⟩
  | cons id calls ih =>
    have hknown : ∃ lang', lang.finishModel config id = some lang' := by
      obtain ⟨rfl, hinv, -, hids⟩ := h
      obtain ⟨m, hm, rfl⟩ := List.mem_map.mp (hids.mem_iff.mpr List.mem_cons_self)
      obtain ⟨i, hi⟩ := List.mem_iff_getElem?.mp hm
      have hlt := (List.getElem?_eq_some_iff.mp hi).1
      obtain ⟨t', ht'⟩ := Option.isSome_iff_exists.mp (hinv.finishModel_isSome hlt)
      obtain ⟨m', hm', ht'⟩ := Option.bind_eq_some_iff.mp ht'
      obtain ⟨lang', hlang', -⟩ := Option.bind_eq_some_iff.mp ht'
      obtain rfl := Option.some.inj (hi.symm.trans hm')
      exact ⟨lang', hlang'⟩
    obtain ⟨lang', hlang'⟩ := hknown
    obtain ⟨t', ht'⟩ := InFlight.finishModel h hlang'
    obtain ⟨lang'', t'', hcalls, ht''⟩ := ih ht'
    exact ⟨lang'', t'', by rw [List.foldlM_cons, hlang']; exact hcalls, ht''⟩

/-! ## Steps -/

theorem InFlight.perm {lang : LangScheduler} {ids ids' : List Nat} {t : LangSystem}
    (h : InFlight config rows lang ids t) (hperm : ids.Perm ids') :
    InFlight config rows lang ids' t :=
  ⟨h.lang_eq, h.inv, h.nonempty, h.ids.trans hperm⟩

/-- A step of the hardware scheduler: the models it reports finish. -/
theorem Inv.stepHardware {a : System.Act} {sched : hw.State} {heap : List { m : Model // m.Tagged }}
    (h : Inv config rows s)
    (hheap : s.waiting.Perm (languageIds a.scheduled ++ languageIds (heap.map (·.val))))
    (hs : hw.step s.sched a = some sched) :
    ∃ u, stepHardware config { s with models := heap } a = some u ∧ Inv config rows u := by
  obtain ⟨⟨t, ht⟩, hcalls⟩ := h
  obtain ⟨left, hleft, -, hreport, hperm⟩ := hw.step_moves hs
  have hdrop : (hw.ledger sched).calls.drop (hw.ledger s.sched).calls.length =
      if hw.reports then languageIds left else [] := by
    rw [hreport, List.drop_left]
  have hgone : languageIds (hw.ledger sched).left = s.gone ++ languageIds left := by
    rw [hleft, languageIds_append]
    rfl
  rw [languageIds_append, languageIds_append] at hperm
  -- the models in flight before the step, with those that it reports in front
  have hflight : (s.waiting ++ s.queued ++ if hw.reports then [] else s.gone).Perm
      ((if hw.reports then languageIds left else []) ++ (languageIds (heap.map (·.val)) ++
        languageIds (hw.ledger sched).queue ++
          if hw.reports then [] else languageIds (hw.ledger sched).left)) := by
    have hcount : ∀ x, List.count x s.queued + List.count x (languageIds a.scheduled) =
        List.count x (languageIds (hw.ledger sched).queue) + List.count x (languageIds left) := by
      intro x
      simpa only [List.count_append, queued] using hperm.count_eq x
    rw [hgone]
    refine List.perm_iff_count.mpr fun x => ?_
    have hx := hcount x
    have hwaiting := hheap.count_eq x
    rw [List.count_append] at hwaiting
    split
    · simp only [List.count_append, List.count_nil]
      omega
    · simp only [List.count_append, List.count_nil]
      omega
  obtain ⟨lang, t', hlang, ht'⟩ := InFlight.finishModels (ht.perm hflight)
  refine ⟨{ s with models := heap, lang := lang, sched := sched }, ?_, ⟨t', ht'⟩, ?_⟩
  · simp only [LangSimulator.stepHardware, hs, Option.bind_eq_bind, Option.bind_some, hdrop, hlang]
  · simp only [gone]
    rw [hreport, hcalls, hgone]
    split <;> rfl

theorem Inv.step {a : Act} (h : Inv config rows s) (hs : step config s a = some u) :
    Inv config rows u := by
  have hardware : ∀ {b : System.Act} {heap : List { m : Model // m.Tagged }},
      s.waiting.Perm (languageIds b.scheduled ++ languageIds (heap.map (·.val))) →
      LangSimulator.stepHardware config { s with models := heap } b = some u →
      Inv config rows u := by
    intro b heap hheap hb
    obtain ⟨sched, hsched, -⟩ := Option.bind_eq_some_iff.mp hb
    obtain ⟨u', hu', hinv⟩ := h.stepHardware hheap hsched
    obtain rfl := Option.some.inj (hu'.symm.trans hb)
    exact hinv
  cases a with
  | cycle =>
    obtain rfl := Option.some.inj hs
    obtain ⟨⟨t, ht⟩, hcalls⟩ := h
    exact ⟨⟨_, ht.cycle⟩, hcalls⟩
  | popModel m =>
    obtain ⟨⟨model, lang⟩, hpop, hs⟩ := Option.bind_eq_some_iff.mp hs
    simp only at hs
    split at hs
    · rename_i hid
      obtain rfl := Option.some.inj hs
      obtain ⟨⟨t, ht⟩, hcalls⟩ := h
      obtain ⟨t', ht'⟩ := ht.popModel hpop
      refine ⟨⟨t', ht'.perm ?_⟩, hcalls⟩
      have hwaiting : languageIds ((s.models ++ [m]).map (·.val)) = s.waiting ++ [model.id] := by
        rw [List.map_append, languageIds_append]
        simp [waiting, languageIds, hid]
      simp only [waiting, queued, gone, hwaiting]
      refine List.perm_iff_count.mpr fun x => ?_
      simp only [List.count_append]
      omega
    · cases hs
  | registerModel m =>
    unfold LangSimulator.step at hs
    simp only at hs
    split at hs
    · cases hs
    · rename_i hplain
      obtain rfl := Option.some.inj hs
      have hwaiting : languageIds ((s.models ++ [m]).map (·.val)) = s.waiting := by
        rw [List.map_append, languageIds_append]
        simp [waiting, languageIds, Model.languageId, hplain]
      obtain ⟨⟨t, ht⟩, hcalls⟩ := h
      refine ⟨⟨t, ?_⟩, hcalls⟩
      have hsame : waiting { s with models := s.models ++ [m] } = s.waiting := hwaiting
      rw [hsame]
      exact ht
  | scheduleModel i requestId =>
    obtain ⟨m, hm, hs⟩ := Option.bind_eq_some_iff.mp hs
    refine hardware ?_ hs
    obtain ⟨hi, rfl⟩ := List.getElem?_eq_some_iff.mp hm
    have herase := (List.getElem_cons_eraseIdx_perm hi).symm.map (·.val)
    simp only [waiting, System.Act.scheduled, ← languageIds_append]
    exact languageIds_perm herase
  | getTile core =>
    refine hardware (b := .getTile core) ?_ hs
    simp [System.Act.scheduled, waiting, languageIds]
  | finishTile core i =>
    refine hardware (b := .finishTile core i) ?_ hs
    simp [System.Act.scheduled, waiting, languageIds]

theorem Run.inv {h : List (LangSimulator hw × Act)} (run : Run config rows h s) :
    Inv config rows s :=
  Machine.Run.invariant run init_inv fun _ _ _ hinv hs => hinv.step hs

/-! ## Reports -/

theorem Inv.reported_iff (h : Inv config rows s) :
    s.Reported ↔ hw.reports = true ∨ s.gone = [] := by
  unfold Reported
  rw [h.calls]
  cases hw.reports with
  | true => simp
  | false => simp

/-- A request that runs is in a model that is queued or in flight. -/
theorem Inv.located (h : Inv config rows s) (hreported : hw.reports = true ∨ s.gone = []) :
    s.Located := by
  obtain ⟨⟨t, hlang, hinv, -, hids⟩, -⟩ := h
  have hnone : (if hw.reports then [] else s.gone) = [] := by
    rcases hreported with hreports | hgone
    · rw [hreports, if_pos rfl]
    · rw [hgone, ite_self]
  rw [hnone, List.append_nil] at hids
  intro r hr hrunning
  rw [← hlang] at hr
  have hmem := (hinv.running.running r hr).mp hrunning
  obtain ⟨m, hm, hrm⟩ := List.mem_flatMap.mp hmem
  have hlookup : s.lang.requestsInModel.lookup m.id = some (requestIds m) := by
    have hone := hinv.atMostOne
    have hmodels : t.models = [m] := by
      obtain ⟨m', hm'⟩ := List.length_eq_one_iff.mp
        (Nat.le_antisymm hone (List.length_pos_of_mem hm))
      rw [hm'] at hm ⊢
      rw [List.mem_singleton.mp hm]
    unfold AList.lookup
    rw [← hlang, hinv.listed, hmodels]
    simp
  refine ⟨m.id, requestIds m, hlookup, hrm, ?_⟩
  rcases List.mem_append.mp hm with hqueued | hflight
  · exact .inl (hlang ▸ List.mem_map_of_mem hqueued)
  · have hid := hids.mem_iff.mp (List.mem_map_of_mem (f := (·.id)) hflight)
    exact .inr (List.mem_append.mp hid)

/-- The requests of a model that has left without a report run, and their model is nowhere. -/
theorem Inv.not_located (h : Inv config rows s) (hsilent : hw.reports = false)
    (hgone : s.gone ≠ []) : ¬ s.Located := by
  obtain ⟨⟨t, hlang, hinv, hnonempty, hids⟩, -⟩ := h
  simp only [hsilent, Bool.false_eq_true, if_false] at hids
  have hone := hinv.atMostOne
  have hlength := hids.length_eq
  have hpos := List.length_pos_iff.mpr hgone
  simp only [LangSystem.models, List.length_append, List.length_map] at hone hlength
  have hqueue : t.lang.modelQueue = [] := List.length_eq_zero_iff.mp (by omega)
  have hwaiting : s.waiting = [] := List.length_eq_zero_iff.mp (by omega)
  have hqueued : s.queued = [] := List.length_eq_zero_iff.mp (by omega)
  obtain ⟨m, hflight⟩ := List.length_eq_one_iff.mp (show t.inFlight.length = 1 by omega)
  have hmodels : t.models = [m] := by
    unfold LangSystem.models
    rw [hqueue, hflight, List.nil_append]
  have hreqs : m.reqs ≠ [] := hnonempty m (by rw [hmodels]; exact List.mem_singleton_self m)
  obtain ⟨input, rest, hinput⟩ := List.exists_cons_of_ne_nil hreqs
  have hid : input.requestId ∈ t.models.flatMap requestIds := by
    rw [hmodels, List.flatMap_singleton]
    exact List.mem_map_of_mem (hinput ▸ List.mem_cons_self)
  obtain ⟨r, hr, hrid⟩ := hinv.running.active _ hid
  have hrunning : r.running = true := (hinv.running.running r hr).mpr (hrid ▸ hid)
  intro hlocated
  obtain ⟨id, ids, -, -, hplace⟩ := hlocated r (hlang ▸ hr) hrunning
  rw [← hlang, hqueue, hwaiting, hqueued] at hplace
  simp at hplace

theorem Inv.located_iff (h : Inv config rows s) :
    s.Located ↔ hw.reports = true ∨ s.gone = [] := by
  refine ⟨fun hlocated => ?_, h.located⟩
  by_contra hnot
  obtain ⟨hreports, hgone⟩ := not_or.mp hnot
  exact h.not_located (Bool.eq_false_iff.mpr hreports) hgone hlocated

/-- In every run, `finish_model` has been called once for each language model that has left the
queue, and no request waits for a model that is nowhere, exactly when the scheduler is the simple one or no
language model has left. -/
theorem language_models_reported_iff (simulation : SimulationConfig) (type : HardwareType)
    {s : LangSimulator (Hardware.create simulation type)}
    {h : List (LangSimulator (Hardware.create simulation type) × Act)} (run : Run config rows h s) :
    (s.Reported ↔ type = .queues .simple ∨ s.gone = []) ∧
      (s.Located ↔ type = .queues .simple ∨ s.gone = []) := by
  have hinv := run.inv
  rw [← Hardware.create_reports simulation type]
  exact ⟨hinv.reported_iff, hinv.located_iff⟩

/-- One core. -/
def oneCore : SimulationConfig := { numCores := 1, dramChannels := 1, dramReqSize := 32 }

/-- A language model of one tile. -/
def oneTile : { m : Model // m.Tagged } where
  val :=
    { operationMap := [{ id := 1, tiles := [{ status := .INITIALIZED, layerId := 1 }] }]
      executableLayer := [1]
      language := true }
  property := by
    unfold Model.Tagged
    decide

/-- The request becomes active, and its model runs to its end. -/
def oneModel : List Act :=
  [.cycle, .popModel oneTile, .scheduleModel 0 0, .getTile 0, .finishTile 0 0]

theorem oneModel_gone (type : HardwareType) :
    ((oneModel.foldlM (step LangSystem.oneLayer)
      (init (Hardware.create oneCore type) [LangSystem.twoTokens])).map (·.gone)) = some [0] := by
  cases type with
  | queues type => cases type <;> decide +kernel
  | spatialSplit => decide +kernel

/-- With the simple scheduler the model is reported. -/
theorem language_models_reported_simple :
    ∃ (h : List (LangSimulator (Hardware.create oneCore (.queues .simple)) × Act)) (s : _),
      Run LangSystem.oneLayer [LangSystem.twoTokens] h s ∧ s.gone = [0] ∧ s.Reported ∧
        s.Located := by
  obtain ⟨s, hs, hgone⟩ := Option.map_eq_some_iff.mp (oneModel_gone (.queues .simple))
  obtain ⟨h, -, run⟩ := Machine.Run.of_foldlM hs
  have run : Run LangSystem.oneLayer [LangSystem.twoTokens] h s := run
  obtain ⟨hreported, hlocated⟩ := language_models_reported_iff oneCore (.queues .simple) run
  exact ⟨h, s, run, hgone, hreported.mpr (.inl rfl), hlocated.mpr (.inl rfl)⟩

/-- With each of the others it is not, and its request runs for ever. -/
theorem language_models_forgotten (type : HardwareType) (htype : type ≠ .queues .simple) :
    ∃ (h : List (LangSimulator (Hardware.create oneCore type) × Act)) (s : _),
      Run LangSystem.oneLayer [LangSystem.twoTokens] h s ∧ ¬ s.Reported ∧ ¬ s.Located := by
  obtain ⟨s, hs, hgone⟩ := Option.map_eq_some_iff.mp (oneModel_gone type)
  obtain ⟨h, -, run⟩ := Machine.Run.of_foldlM hs
  have run : Run LangSystem.oneLayer [LangSystem.twoTokens] h s := run
  have hnot : ¬ ((Hardware.create oneCore type).reports = true ∨ s.gone = []) := by
    rw [Hardware.create_reports, hgone]
    simp [htype]
  exact ⟨h, s, run, fun hreported => hnot (run.inv.reported_iff.mp hreported),
    fun hlocated => hnot (run.inv.located_iff.mp hlocated)⟩

/-- The spatial split, and the schedulers with queues of tiles other than the simple one. -/
theorem language_models_not_reported :
    (∃ (h : List (LangSimulator (Hardware.create oneCore (.queues .timeMultiplex)) × Act)) (s : _),
      Run LangSystem.oneLayer [LangSystem.twoTokens] h s ∧ ¬ s.Reported ∧ ¬ s.Located) ∧
    (∃ (h : List (LangSimulator (Hardware.create oneCore (.queues .partitionCpu)) × Act)) (s : _),
      Run LangSystem.oneLayer [LangSystem.twoTokens] h s ∧ ¬ s.Reported ∧ ¬ s.Located) ∧
    ∃ (h : List (LangSimulator (Hardware.create oneCore .spatialSplit) × Act)) (s : _),
      Run LangSystem.oneLayer [LangSystem.twoTokens] h s ∧ ¬ s.Reported ∧ ¬ s.Located :=
  ⟨language_models_forgotten _ (by decide), language_models_forgotten _ (by decide),
    language_models_forgotten _ (by decide)⟩

end LangSimulator

end OnnxSim
