import OnnxSim.Language.Lifecycle
import OnnxSim.Lib.Loops

/-!
# The batch size

`LangScheduler` admits requests when none is active, `IterLevelScheduler` when there are at most
`_max_batch_size`, and both stop admitting after the request that makes the set full. So a set that
is already full gets one request too many, in the iteration-level scheduler only
(`LangSystem.Overfull`).
-/

namespace OnnxSim

namespace LangScheduler

variable {config : LangConfig} {s s' : LangScheduler}

/-! ## Admission -/

theorem putRequest_length {rs : List LangRequest} {r : LangRequest}
    (h : ∀ q ∈ rs, q.requestId ≠ r.requestId) : (putRequest rs r).length = rs.length + 1 :=
  (putRequest_perm h).length_eq

theorem putRequest_length_le (rs : List LangRequest) (r : LangRequest) :
    (putRequest rs r).length ≤ rs.length + 1 := by
  unfold putRequest
  have hlower : (rs.filter (·.requestId < r.requestId)).length ≤
      rs.countP fun q => !decide (r.requestId < q.requestId) := by
    rw [← List.countP_eq_length_filter]
    refine List.countP_mono_left fun q _ hlt => ?_
    have hlt : q.requestId < r.requestId := by simpa using hlt
    simpa using Nat.le_of_lt hlt
  have hupper := List.length_eq_countP_add_countP (fun q : LangRequest => r.requestId < q.requestId)
    (l := rs)
  simp only [List.length_append, List.length_cons, ← List.countP_eq_length_filter] at hlower ⊢
  simp only [Bool.decide_eq_true, decide_not] at hupper
  omega

/-- A set with room is not overfilled: the loop stops at the request that makes it full. -/
theorem activate_length_le (queue : List LangRequest) (hpos : 0 < config.maxBatchSize)
    (hroom : s.activeRequests.length < config.maxBatchSize) :
    (s.activate config queue).activeRequests.length ≤ config.maxBatchSize := by
  induction queue generalizing s with
  | nil => exact Nat.le_of_lt hroom
  | cons r rest ih =>
    have hone := putRequest_length_le s.activeRequests (initRequest config s r)
    unfold activate
    split
    · simp only
      split
      · simp only
        omega
      · rename_i hmore
        have hlt : (putRequest s.activeRequests (initRequest config s r)).length <
            config.maxBatchSize := by omega
        exact ih hlt
    · exact Nat.le_of_lt hroom

/-- A full set takes the first request of the queue when its time has come, and no more. -/
theorem activate_length_full {r : LangRequest} (rest : List LangRequest)
    (hfull : s.activeRequests.length = config.maxBatchSize) (hpos : 0 < config.maxBatchSize)
    (hnew : ∀ q ∈ s.activeRequests, q.requestId ≠ r.requestId) :
    (s.activate config (r :: rest)).activeRequests.length =
      if r.requestTime ≤ s.cycles then config.maxBatchSize + 1 else config.maxBatchSize := by
  have hone : (putRequest s.activeRequests (initRequest config s r)).length =
      config.maxBatchSize + 1 := by
    rw [← hfull]
    exact putRequest_length hnew
  unfold activate
  split
  · simp only
    rw [if_pos ⟨hpos, by omega⟩]
    exact hone
  · exact hfull

/-! ## The other calls -/

@[simp] theorem initInputsAndModel_length :
    (s.initInputsAndModel config).activeRequests.length = s.activeRequests.length := by
  unfold initInputsAndModel
  simp only
  split
  · rfl
  · exact List.length_map _

theorem popModel_active {m : LangModel} (h : s.popModel = some (m, s')) :
    s'.activeRequests = s.activeRequests := by
  unfold popModel at h
  split at h
  · cases h
  · obtain ⟨-, rfl⟩ := Prod.mk.inj (Option.some.inj h)
    rfl

theorem finishRequest_length_le {id : Nat} (h : finishRequest config s id = some s') :
    s'.activeRequests.length ≤ s.activeRequests.length := by
  obtain ⟨r, hr, -⟩ := Option.bind_eq_some_iff.mp h
  rcases finishRequest_eq hr h with ⟨-, rfl⟩ | ⟨-, rfl⟩
  · exact List.length_filter_le _ _
  · exact Nat.le_of_eq (List.length_map _)

theorem finishModel_length_le {id : Nat} (h : s.finishModel config id = some s') :
    s'.activeRequests.length ≤ s.activeRequests.length := by
  obtain ⟨u, hu, h⟩ := Option.bind_eq_some_iff.mp h
  obtain rfl := Option.some.inj h
  exact Loops.foldlM_induction (P := fun u => u.activeRequests.length ≤ s.activeRequests.length) hu
    (Nat.le_refl _) fun b _ _ b' hb hf => Nat.le_trans (finishRequest_length_le hf) hb

/-- What a cycle does to the number of active requests, it does by admission. -/
theorem cycle_length : (s.cycle config).activeRequests.length =
    if ({ s with cycles := s.cycles + 1 } : LangScheduler).activates config then
      (({ s with cycles := s.cycles + 1 } : LangScheduler).activate config
        s.requestQueue).activeRequests.length
    else s.activeRequests.length := by
  unfold cycle
  simp only
  split <;> split <;> simp

end LangScheduler

namespace LangSystem

open LangScheduler

variable {config : LangConfig} {rows : List TraceRow} {s s' : LangSystem}

/-- A cycle of the iteration-level scheduler that finds the set full and a request whose time has
come. -/
def Overfull (config : LangConfig) (s : LangSystem) (a : Act) : Prop :=
  config.type = .iter ∧ a = .cycle ∧ s.lang.activeRequests.length = config.maxBatchSize ∧
    ∃ r rest, s.lang.requestQueue = r :: rest ∧ r.requestTime ≤ s.lang.cycles + 1

/-- A cycle overfills the set exactly when it is `Overfull`. -/
theorem cycle_length_le_iff (hpos : 0 < config.maxBatchSize) (hinv : Inv config rows s)
    (hle : s.lang.activeRequests.length ≤ config.maxBatchSize) :
    (s.lang.cycle config).activeRequests.length ≤ config.maxBatchSize ↔
      ¬ Overfull config s .cycle := by
  rw [cycle_length]
  by_cases hfull : s.lang.activeRequests.length = config.maxBatchSize
  · have hne : s.lang.activeRequests.isEmpty = false := by
      rw [List.isEmpty_eq_false_iff, ← List.length_pos_iff]
      omega
    cases htype : config.type with
    | simple => simp [activates, Overfull, htype, hne, hle]
    | iter =>
      simp only [activates, Overfull, htype, hfull, Nat.le_refl, true_or, decide_true, if_true,
        true_and]
      cases hqueue : s.lang.requestQueue with
      | nil => simp [LangScheduler.activate, hfull]
      | cons r rest =>
        have hnew : ∀ q ∈ s.lang.activeRequests, q.requestId ≠ r.requestId := by
          have hacc : Account config rows s.served { s.lang with requestQueue := r :: rest } := by
            rw [← hqueue]
            exact hinv.account
          exact hacc.front_new
        rw [activate_length_full (s := { s.lang with
          requestQueue := r :: rest, cycles := s.lang.cycles + 1 }) rest hfull hpos hnew]
        split
        · rename_i hdue
          exact ⟨fun hle => absurd hle (by omega), fun hnot => absurd ⟨r, rest, rfl, hdue⟩ hnot⟩
        · rename_i hlater
          refine ⟨fun _ => ?_, fun _ => Nat.le_refl _⟩
          rintro ⟨_, _, hcons, hdue⟩
          obtain ⟨rfl, rfl⟩ := List.cons.inj hcons
          exact hlater hdue
  · have hroom : s.lang.activeRequests.length < config.maxBatchSize := by omega
    have hlength := activate_length_le (s := { s.lang with cycles := s.lang.cycles + 1 })
      s.lang.requestQueue hpos hroom
    refine ⟨fun _ hover => hfull hover.2.2.1, fun _ => ?_⟩
    split
    · exact hlength
    · exact hle

/-- What a step does to the size of the set of active requests. -/
theorem step_length_le_iff {a : Act} (hpos : 0 < config.maxBatchSize) (hinv : Inv config rows s)
    (hle : s.lang.activeRequests.length ≤ config.maxBatchSize) (hs : step config s a = some s') :
    s'.lang.activeRequests.length ≤ config.maxBatchSize ↔ ¬ Overfull config s a := by
  cases a with
  | cycle =>
    obtain rfl := Option.some.inj hs
    exact cycle_length_le_iff hpos hinv hle
  | popModel =>
    obtain ⟨⟨m, l⟩, hpop, hs⟩ := Option.bind_eq_some_iff.mp hs
    obtain rfl := Option.some.inj hs
    refine ⟨fun _ hover => (nomatch hover.2.1), fun _ => ?_⟩
    simp only
    rw [popModel_active hpop]
    exact hle
  | finishModel i =>
    obtain ⟨m, -, hs⟩ := Option.bind_eq_some_iff.mp hs
    obtain ⟨l, hl, hs⟩ := Option.bind_eq_some_iff.mp hs
    obtain rfl := Option.some.inj hs
    exact ⟨fun _ hover => (nomatch hover.2.1), fun _ => Nat.le_trans (finishModel_length_le hl) hle⟩

/-- The active requests are never more than a batch may hold exactly in the runs that are never
overfull. -/
theorem batch_limit {h : List (LangSystem × Act)} (run : Run config rows h s)
    (hpos : 0 < config.maxBatchSize) :
    Machine.Always (fun s => s.lang.activeRequests.length ≤ config.maxBatchSize) h s ↔
      Machine.EachStep (fun s a => ¬ Overfull config s a) h := by
  have hiff := Machine.Run.always_iff_eachStep (I := Inv config rows)
    (P := fun s => s.lang.activeRequests.length ≤ config.maxBatchSize) (R := fun _ _ => True)
    (C := fun s a => ¬ Overfull config s a) run init_inv (fun _ _ _ hinv hstep => hinv.step hstep)
    (Nat.zero_le _) fun _ _ _ hinv hle hstep => by
      simpa using step_length_le_iff hpos hinv hle hstep
  rw [← hiff]
  exact ⟨fun hall => ⟨hall, fun _ _ => trivial⟩, fun hall => hall.1⟩

/-- Iteration-level batches of one request. -/
def batchesOfOne : LangConfig where
  type := .iter
  numSimLayers := 1
  cacheDim := 8
  maxBatchSize := 1

/-- Two prompts, the second two cycles after the first. -/
def twoPrompts : List TraceRow :=
  [{ time := 0, promptLength := 4, targetLength := 2, cachedLen := 0 },
    { time := 2, promptLength := 4, targetLength := 2, cachedLen := 0 }]

theorem batch_limit_oneCycle : ∃ h s, Run batchesOfOne twoPrompts h s ∧
    Machine.Always (fun s => s.lang.activeRequests.length ≤ 1) h s := by
  have run : Run batchesOfOne twoPrompts [(init twoPrompts, .cycle)]
      { init twoPrompts with lang := (init twoPrompts).lang.cycle batchesOfOne } :=
    Machine.Run.one rfl
  refine ⟨_, _, run, (batch_limit run (by decide)).mpr ?_⟩
  intro p hp hover
  obtain rfl := List.mem_singleton.mp hp
  exact absurd hover.2.2.1 (by decide)

/-- The second request is admitted while the first is still active. -/
theorem second_request_admitted : ∃ h s, Run batchesOfOne twoPrompts h s ∧
    ¬ s.lang.activeRequests.length ≤ batchesOfOne.maxBatchSize := by
  have hlength : (([.cycle, .cycle] : List Act).foldlM (step batchesOfOne) (init twoPrompts)).map
      (·.lang.activeRequests.length) = some 2 := by decide +kernel
  obtain ⟨s, hs, hlength⟩ := Option.map_eq_some_iff.mp hlength
  obtain ⟨h, -, run⟩ := Machine.Run.of_foldlM hs
  exact ⟨h, s, run, by rw [hlength]; decide⟩

end LangSystem

end OnnxSim
