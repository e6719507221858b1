import OnnxSim.Language.Scheduler
import OnnxSim.Lib.Machine

/-!
# The life of a request

Each request of the trace waits in the queue, is active, or has completed. How long its sequence is
follows from the number of finished models that contained it (`LangScheduler.Progress`), and the
models that are queued or in flight, of which there is at most one, list the requests that run
(`LangSystem.Inv`).
-/

namespace OnnxSim

namespace LangScheduler

/-- A request that `k` finished models have contained, as its trace row makes it. -/
structure Progress (row : TraceRow) (k : Nat) (r : LangRequest) : Prop where
  promptLength : r.promptLength = row.promptLength
  targetLength : r.targetLength = row.cachedLen + row.promptLength + row.targetLength
  genPhase : r.genPhase = decide (0 < k)
  currentLength : r.currentLength = row.cachedLen + if k = 0 then 0 else row.promptLength + k

/-- The caches of a request are as long as its sequence, in every layer. -/
def CachesFit (config : LangConfig) (r : LangRequest) : Prop :=
  r.keyCache = List.replicate config.numSimLayers [r.currentLength, config.cacheDim] ∧
    r.valueCache = List.replicate config.numSimLayers [r.currentLength, config.cacheDim]

/-- Where the requests of the trace are, and how far they are; `k` counts for each request the
finished models that contained it. -/
structure Account (config : LangConfig) (rows : List TraceRow) (k : Nat → Nat)
    (s : LangScheduler) : Prop where
  located : ((s.requestQueue ++ s.activeRequests ++ s.completed).map (·.requestId)).Perm
    (List.range rows.length)
  queued : ∀ r ∈ s.requestQueue, k r.requestId = 0 ∧ r.running = false ∧
    ∃ row, rows[r.requestId]? = some row ∧ Progress row 0 r
  active : ∀ r ∈ s.activeRequests, CachesFit config r ∧
    ∃ row, rows[r.requestId]? = some row ∧ Progress row (k r.requestId) r ∧
      k r.requestId < max 1 row.targetLength
  completed : ∀ r ∈ s.completed, CachesFit config r ∧
    ∃ row, rows[r.requestId]? = some row ∧ Progress row (k r.requestId) r ∧
      k r.requestId = max 1 row.targetLength

/-- The active requests that run are those in `ids`. -/
structure Running (ids : List Nat) (s : LangScheduler) : Prop where
  nodup : ids.Nodup
  active : ∀ id ∈ ids, ∃ r ∈ s.activeRequests, r.requestId = id
  running : ∀ r ∈ s.activeRequests, r.running = true ↔ r.requestId ∈ ids

variable {config : LangConfig} {rows : List TraceRow} {k : Nat → Nat} {ids : List Nat}
  {s s' : LangScheduler}

/-! ## Requests by their identifiers -/

theorem Account.nodup (h : Account config rows k s) :
    ((s.requestQueue ++ s.activeRequests ++ s.completed).map (·.requestId)).Nodup :=
  h.located.nodup_iff.mpr List.nodup_range

theorem Account.active_nodup (h : Account config rows k s) :
    (s.activeRequests.map (·.requestId)).Nodup := by
  have hnodup := h.nodup
  rw [List.map_append, List.map_append] at hnodup
  exact (List.nodup_append.mp (List.nodup_append.mp hnodup).1).2.1

theorem Account.eq_of_id (h : Account config rows k s) {q r : LangRequest}
    (hq : q ∈ s.activeRequests) (hr : r ∈ s.activeRequests) (hid : q.requestId = r.requestId) :
    q = r :=
  List.inj_on_of_nodup_map h.active_nodup hq hr hid

/-- The other active requests are those with other identifiers. -/
theorem Account.active_perm (h : Account config rows k s) {r : LangRequest}
    (hr : r ∈ s.activeRequests) :
    s.activeRequests.Perm (r :: s.activeRequests.filter (·.requestId ≠ r.requestId)) := by
  have hnodup : s.activeRequests.Nodup := h.active_nodup.of_map _
  have herase : s.activeRequests.erase r =
      s.activeRequests.filter (·.requestId ≠ r.requestId) := by
    rw [hnodup.erase_eq_filter]
    refine List.filter_congr fun q hq => ?_
    by_cases heq : q = r
    · simp [heq]
    · have hid : q.requestId ≠ r.requestId := fun hid => heq (h.eq_of_id hq hr hid)
      simp [heq, hid]
  rw [← herase]
  exact List.perm_cons_erase hr

theorem request_eq_some {id : Nat} {r : LangRequest} (h : s.request id = some r) :
    r ∈ s.activeRequests ∧ r.requestId = id := by
  refine ⟨List.mem_of_find?_eq_some h, ?_⟩
  simpa using List.find?_some h

theorem exists_request {id : Nat} (h : ∃ r ∈ s.activeRequests, r.requestId = id) :
    ∃ r, s.request id = some r := by
  obtain ⟨r, hr, hid⟩ := h
  unfold request
  rw [← Option.isSome_iff_exists, List.find?_isSome]
  exact ⟨r, hr, by simpa using hid⟩

theorem putRequest_perm {rs : List LangRequest} {r : LangRequest}
    (h : ∀ q ∈ rs, q.requestId ≠ r.requestId) : (putRequest rs r).Perm (r :: rs) := by
  have hrest : rs.filter (r.requestId < ·.requestId) =
      rs.filter fun q => !decide (q.requestId < r.requestId) := by
    refine List.filter_congr fun q hq => ?_
    have hne := h q hq
    by_cases hlt : q.requestId < r.requestId <;> simp [hlt] <;> omega
  unfold putRequest
  rw [hrest]
  exact List.perm_middle.trans (List.Perm.cons _ (List.filter_append_perm _ rs))

/-! ## Activation -/

theorem initRequest_fits (s : LangScheduler) (r : LangRequest) :
    CachesFit config (initRequest config s r) := ⟨rfl, rfl⟩

theorem Account.front_new {r : LangRequest} {rest : List LangRequest}
    (h : Account config rows k { s with requestQueue := r :: rest }) :
    ∀ q ∈ s.activeRequests, q.requestId ≠ (initRequest config s r).requestId := by
  have hnodup := h.nodup
  simp only [List.cons_append, List.map_cons, List.nodup_cons] at hnodup
  intro q hq heq
  refine hnodup.1 (List.mem_map.mpr ⟨q, ?_, heq⟩)
  simp [hq]

/-- The request at the front of the queue becomes active. -/
theorem Account.activateOne {r : LangRequest} {rest : List LangRequest}
    (h : Account config rows k { s with requestQueue := r :: rest }) :
    Account config rows k { s with
      activeRequests := putRequest s.activeRequests (initRequest config s r)
      requestQueue := rest } := by
  have hnew := h.front_new
  have hperm := putRequest_perm hnew
  obtain ⟨hk, hrunning, row, hrow, hprogress⟩ := h.queued r List.mem_cons_self
  refine ⟨?_, fun q hq => h.queued q (List.mem_cons_of_mem _ hq), ?_, h.completed⟩
  · have hmiddle : (rest ++ putRequest s.activeRequests (initRequest config s r) ++ s.completed).Perm
        (initRequest config s r :: (rest ++ s.activeRequests ++ s.completed)) := by
      refine (List.Perm.append_right _ (List.Perm.append_left _ hperm)).trans ?_
      exact List.Perm.append_right _ List.perm_middle
    exact (hmiddle.map (·.requestId)).trans h.located
  · intro q hq
    rcases List.mem_cons.mp (hperm.mem_iff.mp hq) with rfl | hq
    · refine ⟨initRequest_fits s r, row, hrow, ?_, ?_⟩
      · have hid : (initRequest config s r).requestId = r.requestId := rfl
        rw [hid, hk]
        exact ⟨hprogress.promptLength, hprogress.targetLength, rfl, hprogress.currentLength⟩
      · have hid : (initRequest config s r).requestId = r.requestId := rfl
        rw [hid, hk]
        omega
    · exact h.active q hq

/-- A request that has just become active does not run. -/
theorem Running.activateOne {r : LangRequest} {rest : List LangRequest}
    (h : Running ids s) (hacc : Account config rows k { s with requestQueue := r :: rest }) :
    Running ids { s with
      activeRequests := putRequest s.activeRequests (initRequest config s r)
      requestQueue := rest } := by
  have hnew := hacc.front_new
  have hperm := putRequest_perm hnew
  refine ⟨h.nodup, fun id hid => ?_, fun q hq => ?_⟩
  · obtain ⟨q, hq, hqid⟩ := h.active id hid
    exact ⟨q, hperm.mem_iff.mpr (List.mem_cons_of_mem _ hq), hqid⟩
  · rcases List.mem_cons.mp (hperm.mem_iff.mp hq) with rfl | hq
    · refine ⟨fun hrunning => (Bool.false_ne_true hrunning).elim, fun hid => ?_⟩
      obtain ⟨q, hq, hqid⟩ := h.active _ hid
      exact absurd hqid (hnew q hq)
    · exact h.running q hq

/-- What the loop of a cycle keeps, if it keeps it for one request. -/
theorem activate_induction {Q : LangScheduler → Prop}
    (hactivate : ∀ (s : LangScheduler) r rest, Q { s with requestQueue := r :: rest } →
      Q { s with
        activeRequests := putRequest s.activeRequests (initRequest config s r)
        requestQueue := rest })
    {queue : List LangRequest} (h : Q { s with requestQueue := queue }) :
    Q (s.activate config queue) := by
  induction queue generalizing s with
  | nil => exact h
  | cons r rest ih =>
    unfold activate
    split
    · have hone := hactivate s r rest h
      simp only
      split
      · exact hone
      · exact ih hone
    · exact h

/-! ## A new model -/

/-- The caches that a model was given are those of the requests. -/
def InputsFit (reqs : List LangInput) (s : LangScheduler) : Prop :=
  ∀ input ∈ reqs, ∃ r ∈ s.activeRequests, input = inputOf r

/-- The requests of a batch start to run. -/
def markRunning (s : LangScheduler) (ids : List Nat) : List LangRequest :=
  s.activeRequests.map fun r => if r.requestId ∈ ids then { r with running := true } else r

theorem mem_markRunning {q : LangRequest} (h : q ∈ s.markRunning ids) :
    ∃ r ∈ s.activeRequests, q.requestId = r.requestId ∧
      q = { r with running := if r.requestId ∈ ids then true else r.running } := by
  obtain ⟨r, hr, rfl⟩ := List.mem_map.mp h
  refine ⟨r, hr, ?_⟩
  split <;> exact ⟨rfl, rfl⟩

theorem batch_sublist : (s.batch config).Sublist (s.activeRequests.filter fun r => !r.running) := by
  unfold batch
  simp only
  split
  · exact List.take_sublist _ _
  · exact List.Sublist.refl _

theorem Account.markRunning (h : Account config rows k s) {models : AList fun _ : Nat => List Nat}
    {queue : List LangModel} {next : Nat} :
    Account config rows k { s with
      activeRequests := s.markRunning ids
      requestsInModel := models
      modelQueue := queue
      nextId := next } := by
  have hmap : (s.markRunning ids).map (·.requestId) = s.activeRequests.map (·.requestId) := by
    unfold LangScheduler.markRunning
    rw [List.map_map]
    refine List.map_congr_left fun r _ => ?_
    simp only [Function.comp_apply]
    split <;> rfl
  refine ⟨?_, h.queued, fun q hq => ?_, h.completed⟩
  · have hlocated := h.located
    rw [List.map_append, List.map_append] at hlocated ⊢
    simp only [hmap]
    exact hlocated
  · obtain ⟨r, hr, -, rfl⟩ := mem_markRunning hq
    obtain ⟨hfit, row, hrow, hprogress, hlt⟩ := h.active r hr
    exact ⟨hfit, row, hrow, ⟨hprogress.promptLength, hprogress.targetLength, hprogress.genPhase,
      hprogress.currentLength⟩, hlt⟩

theorem Running.markRunning (h : Running [] s) (hacc : Account config rows k s)
    {models : AList fun _ : Nat => List Nat} {queue : List LangModel} {next : Nat} :
    Running ((s.batch config).map (·.requestId)) { s with
      activeRequests := s.markRunning ((s.batch config).map (·.requestId))
      requestsInModel := models
      modelQueue := queue
      nextId := next } := by
  have hsub : (s.batch config).Sublist s.activeRequests := batch_sublist.trans List.filter_sublist
  refine ⟨hacc.active_nodup.sublist (hsub.map _), fun id hid => ?_, fun q hq => ?_⟩
  · obtain ⟨r, hr, rfl⟩ := List.mem_map.mp hid
    refine ⟨_, List.mem_map.mpr ⟨r, hsub.subset hr, rfl⟩, ?_⟩
    split <;> rfl
  · obtain ⟨r, hr, -, rfl⟩ := mem_markRunning hq
    have hidle : r.running ≠ true := fun hrun => by simpa using (h.running r hr).mp hrun
    simp only
    split
    · rename_i hin
      simp [hin]
    · rename_i hout
      simp [hout, hidle]

theorem inputsFit_markRunning {models : AList fun _ : Nat => List Nat} {queue : List LangModel}
    {next : Nat} : InputsFit ((s.batch config).map inputOf) { s with
      activeRequests := s.markRunning ids
      requestsInModel := models
      modelQueue := queue
      nextId := next } := by
  have hsub : (s.batch config).Sublist s.activeRequests := batch_sublist.trans List.filter_sublist
  intro input hinput
  obtain ⟨r, hr, rfl⟩ := List.mem_map.mp hinput
  refine ⟨_, List.mem_map.mpr ⟨r, hsub.subset hr, rfl⟩, ?_⟩
  split <;> rfl

/-! ## A finished model -/

/-- One more finished model contained request `id`. -/
def serve (k : Nat → Nat) (id : Nat) : Nat → Nat := Function.update k id (k id + 1)

theorem advance_fits {r : LangRequest} (h : CachesFit config r) :
    CachesFit config (advance config r) := by
  obtain ⟨hkey, hvalue⟩ := h
  unfold CachesFit advance
  simp only [hkey, hvalue, List.map_replicate, and_self]

theorem Progress.advance {row : TraceRow} {n : Nat} {r : LangRequest} (h : Progress row n r) :
    Progress row (n + 1) (advance config r) := by
  refine ⟨h.promptLength, h.targetLength, by simp [LangScheduler.advance], ?_⟩
  have hphase := h.genPhase
  have hlength := h.currentLength
  unfold LangScheduler.advance
  simp only [h.promptLength]
  by_cases hn : n = 0
  · subst hn
    have hprefill : r.genPhase = false := by simpa using hphase
    simp only [hprefill, Bool.false_eq_true, if_false, if_true] at hlength ⊢
    simp
    omega
  · have hgen : r.genPhase = true := by simpa [Nat.pos_of_ne_zero hn] using hphase
    simp only [hgen, if_true, hn, if_false] at hlength ⊢
    simp
    omega

/-- A request has all its tokens exactly when `max 1 T` models have contained it. -/
theorem Progress.done_iff {row : TraceRow} {n : Nat} {r : LangRequest} (h : Progress row (n + 1) r) :
    r.currentLength ≥ r.targetLength ↔ max 1 row.targetLength ≤ n + 1 := by
  rw [h.currentLength, h.targetLength]
  simp only [Nat.succ_ne_zero, if_false]
  omega

/-- What `finish_model` does for one request. -/
theorem finishRequest_eq {id : Nat} {r : LangRequest} (hr : s.request id = some r)
    (h : finishRequest config s id = some s') :
    (advance config r).currentLength ≥ (advance config r).targetLength ∧ s' = { s with
      activeRequests := s.activeRequests.filter (·.requestId ≠ id)
      completed := s.completed ++ [{ advance config r with finishTime := s.cycles }] } ∨
    ¬ (advance config r).currentLength ≥ (advance config r).targetLength ∧ s' = { s with
      activeRequests := s.activeRequests.map fun q =>
        if q.requestId = id then advance config r else q } := by
  unfold finishRequest at h
  rw [hr] at h
  simp only [Option.bind_eq_bind, Option.bind_some] at h
  split at h
  · rename_i hdone
    exact .inl ⟨hdone, (Option.some.inj h).symm⟩
  · rename_i hmore
    exact .inr ⟨hmore, (Option.some.inj h).symm⟩

@[simp] theorem advance_requestId (r : LangRequest) :
    (advance config r).requestId = r.requestId := rfl

theorem Account.finishRequest {id : Nat} (h : Account config rows k s)
    (hid : ∃ r ∈ s.activeRequests, r.requestId = id)
    (hs : finishRequest config s id = some s') : Account config rows (serve k id) s' := by
  obtain ⟨r, hr⟩ := exists_request hid
  obtain ⟨hmem, hrid⟩ := request_eq_some hr
  obtain ⟨hfit, row, hrow, hprogress, hlt⟩ := h.active r hmem
  rw [hrid] at hprogress hlt hrow
  have hnodup := h.nodup
  have hactive := h.active_nodup
  have hqueued : ∀ q ∈ s.requestQueue, q.requestId ≠ id := by
    intro q hq heq
    rw [List.append_assoc, List.map_append] at hnodup
    refine (List.nodup_append.mp hnodup).2.2 q.requestId (List.mem_map_of_mem hq) r.requestId
      (List.mem_map_of_mem (List.mem_append_left _ hmem)) (heq.trans hrid.symm)
  have hcompleted : ∀ q ∈ s.completed, q.requestId ≠ id := by
    intro q hq heq
    rw [List.map_append] at hnodup
    refine (List.nodup_append.mp hnodup).2.2 r.requestId
      (List.mem_map_of_mem (List.mem_append_right _ hmem)) q.requestId
      (List.mem_map_of_mem hq) (hrid.trans heq.symm)
  have hother : ∀ q : LangRequest, q.requestId ≠ id → serve k id q.requestId = k q.requestId :=
    fun q hq => Function.update_of_ne hq _ _
  have hself : serve k id id = k id + 1 := Function.update_self _ _ _
  have hq' : ∀ q ∈ s.requestQueue, serve k id q.requestId = 0 ∧ q.running = false ∧
      ∃ row, rows[q.requestId]? = some row ∧ Progress row 0 q := by
    intro q hq
    rw [hother q (hqueued q hq)]
    exact h.queued q hq
  have hc' : ∀ q ∈ s.completed, CachesFit config q ∧ ∃ row, rows[q.requestId]? = some row ∧
      Progress row (serve k id q.requestId) q ∧
        serve k id q.requestId = max 1 row.targetLength := by
    intro q hq
    rw [hother q (hcompleted q hq)]
    exact h.completed q hq
  have hadvance : Progress row (k id + 1) (advance config r) := hprogress.advance
  rcases finishRequest_eq hr hs with ⟨hdone, rfl⟩ | ⟨hmore, rfl⟩
  · refine ⟨?_, hq', fun q hq => ?_, ?_⟩
    · have hperm := h.active_perm hmem
      rw [hrid] at hperm
      refine List.Perm.trans ?_ ((List.Perm.map (·.requestId) (List.Perm.append_right _
        (List.Perm.append_left _ hperm.symm))).trans h.located)
      simp only [List.map_append, List.map_cons, List.map_nil, advance_requestId]
      refine List.Perm.trans ?_ (List.Perm.append_right _ List.perm_middle.symm)
      simp only [← List.append_assoc, List.cons_append]
      exact List.perm_append_singleton _ _
    · obtain ⟨hq, hne⟩ := List.mem_filter.mp hq
      rw [hother q (by simpa using hne)]
      exact h.active q hq
    · refine List.forall_mem_append.mpr ⟨hc', List.forall_mem_singleton.mpr ?_⟩
      refine ⟨advance_fits hfit, row, ?_, ?_, ?_⟩
      · simpa [hrid] using hrow
      · simp only [advance_requestId, hrid, hself]
        exact ⟨hadvance.promptLength, hadvance.targetLength, hadvance.genPhase,
          hadvance.currentLength⟩
      · have hmax := hadvance.done_iff.mp hdone
        simp only [advance_requestId, hrid, hself]
        omega
  · refine ⟨?_, hq', fun q hq => ?_, hc'⟩
    · have hmap : (s.activeRequests.map fun q => if q.requestId = id then advance config r else q).map
          (·.requestId) = s.activeRequests.map (·.requestId) := by
        rw [List.map_map]
        refine List.map_congr_left fun q _ => ?_
        simp only [Function.comp_apply]
        split
        · rename_i heq
          simp [hrid, heq]
        · rfl
      have hlocated := h.located
      rw [List.map_append, List.map_append] at hlocated ⊢
      simp only [hmap]
      exact hlocated
    · obtain ⟨q', hq', rfl⟩ := List.mem_map.mp hq
      split
      · refine ⟨advance_fits hfit, row, by simpa [hrid] using hrow, ?_, ?_⟩
        · simp only [advance_requestId, hrid, hself]
          exact hadvance
        · have hmax := (not_congr hadvance.done_iff).mp hmore
          simp only [advance_requestId, hrid, hself]
          omega
      · rename_i hne
        rw [hother q' hne]
        exact h.active q' hq'

theorem Running.finishRequest {id : Nat} (h : Running (id :: ids) s)
    (hs : finishRequest config s id = some s') : Running ids s' := by
  obtain ⟨hid, hnodup⟩ := List.nodup_cons.mp h.nodup
  obtain ⟨r, hr⟩ := exists_request (h.active id List.mem_cons_self)
  obtain ⟨hmem, hrid⟩ := request_eq_some hr
  have hne : ∀ id' ∈ ids, id' ≠ id := fun id' hid' heq => hid (heq ▸ hid')
  rcases finishRequest_eq hr hs with ⟨-, rfl⟩ | ⟨-, rfl⟩
  · refine ⟨hnodup, fun id' hid' => ?_, fun q hq => ?_⟩
    · obtain ⟨q, hq, rfl⟩ := h.active id' (List.mem_cons_of_mem _ hid')
      exact ⟨q, List.mem_filter.mpr ⟨hq, by simpa using hne _ hid'⟩, rfl⟩
    · obtain ⟨hq, hqid⟩ := List.mem_filter.mp hq
      have hqne : q.requestId ≠ id := by simpa using hqid
      simpa [hqne] using h.running q hq
  · refine ⟨hnodup, fun id' hid' => ?_, fun q hq => ?_⟩
    · obtain ⟨q, hq, rfl⟩ := h.active id' (List.mem_cons_of_mem _ hid')
      refine ⟨_, List.mem_map_of_mem hq, ?_⟩
      rw [if_neg (hne _ hid')]
    · obtain ⟨q', hq', rfl⟩ := List.mem_map.mp hq
      split
      · refine ⟨fun hrun => (Bool.false_ne_true hrun).elim, fun hin => ?_⟩
        exact absurd (hrid ▸ hin) hid
      · rename_i hqne
        simpa [hqne] using h.running q' hq'

/-- The requests that a model lists, counted once more each. -/
def serveAll (k : Nat → Nat) (ids : List Nat) : Nat → Nat := ids.foldl serve k

theorem serveAll_eq {k : Nat → Nat} {ids : List Nat} (h : ids.Nodup) (id : Nat) :
    serveAll k ids id = k id + if id ∈ ids then 1 else 0 := by
  induction ids generalizing k with
  | nil => simp [serveAll]
  | cons a ids ih =>
    obtain ⟨ha, hids⟩ := List.nodup_cons.mp h
    have hrest : serveAll k (a :: ids) id = serveAll (serve k a) ids id := rfl
    rw [hrest, ih hids]
    by_cases heq : id = a
    · subst heq
      simp [serve, ha]
    · simp [serve, heq]

/-- The loop of `finish_model` over the requests of the model. -/
theorem finishRequests (hacc : Account config rows k s) (hrun : Running ids s)
    (h : ids.foldlM (finishRequest config) s = some s') :
    Account config rows (serveAll k ids) s' ∧ Running [] s' ∧
      s'.requestsInModel = s.requestsInModel ∧ s'.modelQueue = s.modelQueue ∧
      s'.nextId = s.nextId := by
  induction ids generalizing s k with
  | nil =>
    obtain rfl := Option.some.inj h
    exact ⟨hacc, hrun, rfl, rfl, rfl⟩
  | cons id ids ih =>
    rw [List.foldlM_cons] at h
    obtain ⟨u, hu, h⟩ := Option.bind_eq_some_iff.mp h
    have hactive := hrun.active id List.mem_cons_self
    obtain ⟨hacc', hrun', hmodels, hqueue, hnext⟩ :=
      ih (hacc.finishRequest hactive hu) (hrun.finishRequest hu) h
    obtain ⟨r, hr⟩ := exists_request hactive
    refine ⟨hacc', hrun', ?_⟩
    rcases finishRequest_eq hr hu with ⟨-, rfl⟩ | ⟨-, rfl⟩ <;> exact ⟨hmodels, hqueue, hnext⟩

/-- The loop never meets a null pointer. -/
theorem exists_finishRequests (hacc : Account config rows k s) (hrun : Running ids s) :
    ∃ s', ids.foldlM (finishRequest config) s = some s' := by
  induction ids generalizing s k with
  | nil => exact ⟨s, rfl⟩
  | cons id ids ih =>
    obtain ⟨r, hr⟩ := exists_request (hrun.active id List.mem_cons_self)
    obtain ⟨u, hu⟩ : ∃ u, finishRequest config s id = some u := by
      unfold finishRequest
      rw [hr]
      simp only [Option.bind_eq_bind, Option.bind_some]
      split <;> exact ⟨_, rfl⟩
    obtain ⟨s', hs'⟩ := ih (hacc.finishRequest (hrun.active id List.mem_cons_self) hu)
      (hrun.finishRequest hu)
    exact ⟨s', by rw [List.foldlM_cons]; exact Option.bind_eq_some_iff.mpr ⟨u, hu, hs'⟩⟩

end LangScheduler

namespace LangSystem

open LangScheduler

variable {config : LangConfig} {rows : List TraceRow} {s s' : LangSystem}

/-- The requests that a model contains. -/
def requestIds (m : LangModel) : List Nat := m.reqs.map (·.requestId)

/-- The models that are queued or in flight. -/
def models (s : LangSystem) : List LangModel := s.lang.modelQueue ++ s.inFlight

/-- How many finished models contained request `id`. -/
def served (s : LangSystem) (id : Nat) : Nat := s.finished.countP fun m => id ∈ requestIds m

/-- The invariant of the runs. -/
structure Inv (config : LangConfig) (rows : List TraceRow) (s : LangSystem) : Prop where
  account : Account config rows s.served s.lang
  listed : s.lang.requestsInModel.entries = s.models.map fun m => ⟨m.id, requestIds m⟩
  atMostOne : s.models.length ≤ 1
  running : Running (s.models.flatMap requestIds) s.lang
  inputs : InputsFit (s.models.flatMap (·.reqs)) s.lang

/-! ## Steps -/

theorem init_inv : Inv config rows (init rows) := by
  have hrows : ∀ (id time : Nat) (tail : List TraceRow),
      (parseRows id time tail).map (·.requestId) = List.range' id tail.length ∧
      ∀ r ∈ parseRows id time tail, r.running = false ∧
        ∃ row, tail[r.requestId - id]? = some row ∧ id ≤ r.requestId ∧ Progress row 0 r := by
    intro id time tail
    induction tail generalizing id time with
    | nil => exact ⟨rfl, fun r hr => (nomatch hr)⟩
    | cons row tail ih =>
      obtain ⟨hids, hall⟩ := ih (id + 1) (time + row.time)
      refine ⟨?_, fun r hr => ?_⟩
      · simp only [parseRows, List.map_cons, hids, List.length_cons, List.range'_succ]
      · rcases List.mem_cons.mp hr with rfl | hr
        · exact ⟨rfl, row, by simp, Nat.le_refl _, rfl, rfl, rfl, rfl⟩
        · obtain ⟨hrunning, row', hrow', hle, hprogress⟩ := hall r hr
          refine ⟨hrunning, row', ?_, by omega, hprogress⟩
          obtain ⟨d, hd⟩ : ∃ d, r.requestId - id = d + 1 := ⟨r.requestId - id - 1, by omega⟩
          rw [hd, List.getElem?_cons_succ]
          rwa [show r.requestId - (id + 1) = d by omega] at hrow'
  obtain ⟨hids, hall⟩ := hrows 0 0 rows
  refine ⟨⟨?_, fun r hr => ?_, fun r hr => (nomatch hr), fun r hr => (nomatch hr)⟩, rfl,
    Nat.zero_le _, ⟨List.nodup_nil, fun id hid => (nomatch hid), fun r hr => (nomatch hr)⟩,
    fun i hi => (nomatch hi)⟩
  · have hperm : (parseRows 0 0 rows).map (·.requestId) = List.range rows.length := by
      rw [hids, List.range_eq_range']
    simpa [init, LangScheduler.init, parseRequestTrace] using List.Perm.of_eq hperm
  · obtain ⟨hrunning, row, hrow, -, hprogress⟩ := hall r hr
    exact ⟨rfl, hrunning, row, by simpa using hrow, hprogress⟩

theorem InputsFit.activateOne {rs : List LangInput} {l : LangScheduler} {r : LangRequest}
    {rest : List LangRequest} {k : Nat → Nat} (h : InputsFit rs l)
    (hacc : Account config rows k { l with requestQueue := r :: rest }) :
    InputsFit rs { l with
      activeRequests := putRequest l.activeRequests (initRequest config l r)
      requestQueue := rest } := by
  have hperm := putRequest_perm hacc.front_new
  intro input hinput
  obtain ⟨q, hq, rfl⟩ := h input hinput
  exact ⟨q, hperm.mem_iff.mpr (List.mem_cons_of_mem _ hq), rfl⟩

/-- The first half of a cycle. -/
theorem Inv.activate {l : LangScheduler} {cycles : Nat} (h : Inv config rows s)
    (hl : l = LangScheduler.activate config { s.lang with cycles := cycles } s.lang.requestQueue) :
    Inv config rows { s with lang := l } := by
  subst hl
  refine activate_induction (Q := fun l => Inv config rows { s with lang := l })
    (fun l r rest hl => ?_) ?_
  · exact ⟨hl.account.activateOne, hl.listed, hl.atMostOne, hl.running.activateOne hl.account,
      InputsFit.activateOne hl.inputs hl.account⟩
  · obtain ⟨⟨hlocated, hqueued, hactive, hcompleted⟩, hlisted, hone, hrunning, hinputs⟩ := h
    exact ⟨⟨hlocated, hqueued, hactive, hcompleted⟩, hlisted, hone,
      ⟨hrunning.nodup, hrunning.active, hrunning.running⟩, hinputs⟩

/-- A new model is made when none is queued or in flight. -/
theorem Inv.initInputsAndModel (h : Inv config rows s) (hnone : s.lang.requestsInModel.entries = []) :
    Inv config rows { s with lang := s.lang.initInputsAndModel config } := by
  have hmodels : s.models = [] := by
    have hlisted := h.listed
    rw [hnone] at hlisted
    exact List.map_eq_nil_iff.mp hlisted.symm
  obtain ⟨hqueue, hflight⟩ := List.append_eq_nil_iff.mp hmodels
  unfold LangScheduler.initInputsAndModel
  simp only
  split
  · exact h
  · have hids : ((s.lang.batch config).map inputOf).map (·.requestId) =
        (s.lang.batch config).map (·.requestId) := by
      rw [List.map_map]
      rfl
    have hidle : Running [] s.lang := by
      have hrunning := h.running
      rwa [hmodels] at hrunning
    have hlookup : s.lang.requestsInModel.lookup s.lang.nextId = none := by
      unfold AList.lookup
      rw [hnone]
      rfl
    refine ⟨h.account.markRunning, ?_, ?_, ?_, ?_⟩
    · simp only [models, hqueue, hflight, hlookup, AList.entries_insert, hnone, requestIds]
      simp [hids]
    · simp [models, hqueue, hflight]
    · simp only [models, hqueue, hflight, List.nil_append, List.append_nil, List.flatMap_singleton,
        requestIds, hids]
      exact hidle.markRunning h.account
    · simp only [models, hqueue, hflight, List.nil_append, List.append_nil, List.flatMap_singleton]
      exact inputsFit_markRunning

theorem Inv.cycle (h : Inv config rows s) : Inv config rows { s with lang := s.lang.cycle config } := by
  have hstart : Inv config rows { s with lang := { s.lang with cycles := s.lang.cycles + 1 } } := by
    obtain ⟨⟨hlocated, hqueued, hactive, hcompleted⟩, hlisted, hone, hrunning, hinputs⟩ := h
    exact ⟨⟨hlocated, hqueued, hactive, hcompleted⟩, hlisted, hone,
      ⟨hrunning.nodup, hrunning.active, hrunning.running⟩, hinputs⟩
  have hactivated : ∀ l, l = (if ({ s.lang with cycles := s.lang.cycles + 1 } : LangScheduler).activates
        config then LangScheduler.activate config { s.lang with cycles := s.lang.cycles + 1 }
          s.lang.requestQueue
      else { s.lang with cycles := s.lang.cycles + 1 }) → Inv config rows { s with lang := l } := by
    rintro l rfl
    split
    · exact h.activate rfl
    · exact hstart
  unfold LangScheduler.cycle
  simp only
  generalize hl : (if ({ s.lang with cycles := s.lang.cycles + 1 } : LangScheduler).activates config
    then _ else _) = l
  have hinv := hactivated l hl.symm
  split
  · rename_i hidle
    exact hinv.initInputsAndModel (List.isEmpty_iff.mp hidle.2)
  · exact hinv

theorem Inv.popModel {m : LangModel} {l : LangScheduler} (h : Inv config rows s)
    (hpop : s.lang.popModel = some (m, l)) :
    Inv config rows { s with lang := l, inFlight := s.inFlight ++ [m] } := by
  unfold LangScheduler.popModel at hpop
  split at hpop
  · cases hpop
  · rename_i m' rest hqueue
    obtain ⟨rfl, rfl⟩ := Prod.mk.inj (Option.some.inj hpop)
    obtain ⟨hrest, hflight⟩ : rest = [] ∧ s.inFlight = [] := by
      have hone := h.atMostOne
      simp only [models, hqueue, List.length_append, List.length_cons] at hone
      exact ⟨List.length_eq_zero_iff.mp (by omega), List.length_eq_zero_iff.mp (by omega)⟩
    subst hrest
    obtain ⟨⟨hlocated, hqueued, hactive, hcompleted⟩, hlisted, hone, hrunning, hinputs⟩ := h
    simp only [models, hqueue, hflight, List.append_nil] at hlisted hone hrunning hinputs
    refine ⟨⟨hlocated, hqueued, hactive, hcompleted⟩, ?_, ?_, ?_, ?_⟩
    all_goals simp only [models, hflight, List.nil_append]
    · exact hlisted
    · exact hone
    · exact ⟨hrunning.nodup, hrunning.active, hrunning.running⟩
    · exact hinputs

/-- The finished model was the only one. -/
theorem Inv.inFlight_eq {m : LangModel} {i : Nat} (h : Inv config rows s)
    (hm : s.inFlight[i]? = some m) : i = 0 ∧ s.inFlight = [m] ∧ s.lang.modelQueue = [] := by
  have hone := h.atMostOne
  simp only [models, List.length_append] at hone
  obtain ⟨hi, hget⟩ := List.getElem?_eq_some_iff.mp hm
  have hzero : i = 0 := by omega
  subst hzero
  refine ⟨rfl, ?_, List.length_eq_zero_iff.mp (by omega)⟩
  obtain ⟨m', hm'⟩ := List.length_eq_one_iff.mp (show s.inFlight.length = 1 by omega)
  simp only [hm', List.getElem_cons_zero] at hget
  rw [hm', hget]

/-- A finished model served each of its requests once more. -/
theorem served_snoc {m : LangModel} {l : LangScheduler} {flight : List LangModel}
    (h : (requestIds m).Nodup) :
    served { lang := l, inFlight := flight, finished := s.finished ++ [m] } =
      serveAll s.served (requestIds m) := by
  funext id
  rw [serveAll_eq h]
  unfold served
  rw [List.countP_append, List.countP_singleton]
  simp

theorem Inv.finishModel {m : LangModel} {l : LangScheduler} {i : Nat} (h : Inv config rows s)
    (hm : s.inFlight[i]? = some m) (hl : s.lang.finishModel config m.id = some l) :
    Inv config rows
      { lang := l, inFlight := s.inFlight.eraseIdx i, finished := s.finished ++ [m] } := by
  obtain ⟨rfl, hflight, hqueue⟩ := h.inFlight_eq hm
  have hmodels : s.models = [m] := by
    unfold models
    rw [hqueue, hflight, List.nil_append]
  obtain ⟨hacc, hlisted, -, hrunning, -⟩ := h
  rw [hmodels] at hlisted hrunning
  have hlookup : s.lang.requestsInModel.lookup m.id = some (requestIds m) := by
    unfold AList.lookup
    rw [hlisted]
    simp
  rw [List.flatMap_singleton] at hrunning
  obtain ⟨u, hu, hl⟩ := Option.bind_eq_some_iff.mp hl
  rw [hlookup, Option.getD_some] at hu
  obtain rfl := Option.some.inj hl
  obtain ⟨hacc', hrunning', hmodels', hqueue', -⟩ := finishRequests hacc hrunning hu
  have hnone : u.modelQueue ++ s.inFlight.eraseIdx 0 = [] := by
    rw [hqueue', hqueue, hflight]
    rfl
  refine ⟨?_, ?_, ?_, ?_, ?_⟩
  · rw [served_snoc hrunning.nodup]
    exact ⟨hacc'.located, hacc'.queued, hacc'.active, hacc'.completed⟩
  · have herase : (u.requestsInModel.erase m.id).entries = u.requestsInModel.entries.kerase m.id := rfl
    rw [herase, hmodels', hlisted]
    simp only [models, hnone, List.map_nil]
    exact List.kerase_cons_eq rfl
  · simp only [models, hnone, List.length_nil]
    omega
  · simp only [models, hnone, List.flatMap_nil]
    exact ⟨hrunning'.nodup, hrunning'.active, hrunning'.running⟩
  · simp only [models, hnone, List.flatMap_nil]
    intro input hinput
    exact absurd hinput List.not_mem_nil

theorem Inv.step {a : Act} (h : Inv config rows s) (hs : step config s a = some s') :
    Inv config rows s' := by
  cases a with
  | cycle =>
    obtain rfl := Option.some.inj hs
    exact h.cycle
  | popModel =>
    obtain ⟨⟨m, l⟩, hpop, hs⟩ := Option.bind_eq_some_iff.mp hs
    obtain rfl := Option.some.inj hs
    exact h.popModel hpop
  | finishModel i =>
    obtain ⟨m, hm, hs⟩ := Option.bind_eq_some_iff.mp hs
    obtain ⟨l, hl, hs⟩ := Option.bind_eq_some_iff.mp hs
    obtain rfl := Option.some.inj hs
    exact h.finishModel hm hl

/-- The runs of a language scheduler over a trace, in any order of its calls. -/
def Run (config : LangConfig) (rows : List TraceRow) (h : List (LangSystem × Act))
    (s : LangSystem) : Prop :=
  Machine.Run (Machine.partialDet (LangSystem.step config)) (init rows) h s

theorem Run.inv {h : List (LangSystem × Act)} (run : Run config rows h s) : Inv config rows s :=
  Machine.Run.invariant run init_inv fun _ _ _ hinv hstep => hinv.step hstep

/-! ## The lifecycle -/

/-- `finish_model` never meets a null pointer. -/
theorem Inv.finishModel_isSome {i : Nat} (h : Inv config rows s) (hi : i < s.inFlight.length) :
    (LangSystem.step config s (.finishModel i)).isSome := by
  obtain ⟨m, hm⟩ : ∃ m, s.inFlight[i]? = some m := ⟨_, List.getElem?_eq_getElem hi⟩
  obtain ⟨-, hflight, hqueue⟩ := h.inFlight_eq hm
  have hmodels : s.models = [m] := by
    unfold models
    rw [hqueue, hflight, List.nil_append]
  have hlisted := h.listed
  have hrunning := h.running
  rw [hmodels] at hlisted hrunning
  have hlookup : s.lang.requestsInModel.lookup m.id = some (requestIds m) := by
    unfold AList.lookup
    rw [hlisted]
    simp
  rw [List.flatMap_singleton] at hrunning
  obtain ⟨u, hu⟩ := exists_finishRequests h.account hrunning
  have hl : s.lang.finishModel config m.id =
      some { u with requestsInModel := u.requestsInModel.erase m.id } := by
    unfold LangScheduler.finishModel
    rw [hlookup, Option.getD_some, hu]
    rfl
  simp [LangSystem.step, hm, hl]

/-- An active request runs exactly when one entry of `_requests_in_model` lists it. -/
theorem Inv.running_iff {r : LangRequest} (h : Inv config rows s) (hr : r ∈ s.lang.activeRequests) :
    r.running = true ↔
      (s.lang.requestsInModel.entries.countP fun e => r.requestId ∈ e.2) = 1 := by
  rw [h.running.running r hr, h.listed]
  have hone := h.atMostOne
  generalize s.models = models at hone
  match models, hone with
  | [], _ => simp
  | [m], _ => simp [requestIds, List.countP_singleton]
  | _ :: _ :: _, hone => simp at hone

/-- A request is completed when `max 1 T` finished models have contained it, and not before. -/
theorem Inv.completed_iff {id : Nat} {row : TraceRow} (h : Inv config rows s)
    (hrow : rows[id]? = some row) :
    ((∃ r ∈ s.lang.completed, r.requestId = id) ↔ s.served id = max 1 row.targetLength) ∧
      s.served id ≤ max 1 row.targetLength := by
  have hid : id ∈ (s.lang.requestQueue ++ s.lang.activeRequests ++ s.lang.completed).map
      (·.requestId) := by
    rw [h.account.located.mem_iff, List.mem_range]
    exact (List.getElem?_eq_some_iff.mp hrow).1
  have hnodup := h.account.nodup
  rw [List.map_append] at hid hnodup
  have hdisjoint := (List.nodup_append.mp hnodup).2.2
  rcases List.mem_append.mp hid with hpending | hdone
  · have hnot : ¬ ∃ r ∈ s.lang.completed, r.requestId = id := by
      rintro ⟨r, hr, rfl⟩
      exact hdisjoint _ hpending _ (List.mem_map_of_mem hr) rfl
    have hlt : s.served id < max 1 row.targetLength := by
      rw [List.map_append, List.mem_append] at hpending
      rcases hpending with hqueued | hactive
      · obtain ⟨r, hr, rfl⟩ := List.mem_map.mp hqueued
        have hzero := (h.account.queued r hr).1
        omega
      · obtain ⟨r, hr, rfl⟩ := List.mem_map.mp hactive
        obtain ⟨-, row', hrow', -, hlt⟩ := h.account.active r hr
        obtain rfl := Option.some.inj (hrow.symm.trans hrow')
        exact hlt
    exact ⟨⟨fun hex => absurd hex hnot, fun heq => absurd heq (by omega)⟩, by omega⟩
  · obtain ⟨r, hr, rfl⟩ := List.mem_map.mp hdone
    obtain ⟨-, row', hrow', -, hmax⟩ := h.account.completed r hr
    obtain rfl := Option.some.inj (hrow.symm.trans hrow')
    exact ⟨⟨fun _ => hmax, fun _ => ⟨r, hr, rfl⟩⟩, by omega⟩

/-- The lifecycle of the requests. Every request of the trace is queued, active or completed, in one
place only; an active request runs exactly when one model in progress lists it; at most one model is
queued or in flight; and a request for `T` tokens is completed by the finished model number
`max 1 T` that contains it, at its full length. -/
theorem request_lifecycle {h : List (LangSystem × Act)} (run : Run config rows h s) :
    ((s.lang.requestQueue ++ s.lang.activeRequests ++ s.lang.completed).map (·.requestId)).Perm
      (List.range rows.length) ∧
    (∀ r ∈ s.lang.activeRequests, r.running = true ↔
      (s.lang.requestsInModel.entries.countP fun e => r.requestId ∈ e.2) = 1) ∧
    s.models.length ≤ 1 ∧
    (∀ id row, rows[id]? = some row →
      ((∃ r ∈ s.lang.completed, r.requestId = id) ↔ s.served id = max 1 row.targetLength) ∧
        s.served id ≤ max 1 row.targetLength) ∧
    (∀ r ∈ s.lang.completed, ∃ row, rows[r.requestId]? = some row ∧
      r.currentLength = row.cachedLen + row.promptLength + max 1 row.targetLength) ∧
    ∀ i < s.inFlight.length, (step config s (.finishModel i)).isSome := by
  have hinv := run.inv
  refine ⟨hinv.account.located, fun r hr => hinv.running_iff hr, hinv.atMostOne,
    fun id row hrow => hinv.completed_iff hrow, fun r hr => ?_, fun i hi =>
      hinv.finishModel_isSome hi⟩
  obtain ⟨-, row, hrow, hprogress, hmax⟩ := hinv.account.completed r hr
  refine ⟨row, hrow, ?_⟩
  have hpos : s.served r.requestId ≠ 0 := by omega
  rw [hprogress.currentLength, if_neg hpos, hmax]
  omega

/-- One layer, and batches of any size. -/
def oneLayer : LangConfig where
  numSimLayers := 1
  cacheDim := 8

/-- A prompt of four tokens that asks for two. -/
def twoTokens : TraceRow where
  time := 0
  promptLength := 4
  targetLength := 2
  cachedLen := 0

/-- The request becomes active, and two models finish. -/
def twoModels : List Act := [.cycle, .popModel, .finishModel 0, .cycle, .popModel, .finishModel 0]

/-- The request is completed by its second model. -/
theorem request_lifecycle_twoTokens : ∃ h s, Run oneLayer [twoTokens] h s ∧ s.served 0 = 2 ∧
    ∃ r ∈ s.lang.completed, r.requestId = 0 := by
  have hserved : (twoModels.foldlM (step oneLayer) (init [twoTokens])).map (·.served 0) = some 2 := by
    decide +kernel
  obtain ⟨s, hs, hserved⟩ := Option.map_eq_some_iff.mp hserved
  obtain ⟨h, -, run⟩ := Machine.Run.of_foldlM hs
  have run : Run oneLayer [twoTokens] h s := run
  obtain ⟨-, -, -, hcompleted, -⟩ := request_lifecycle run
  exact ⟨h, s, run, hserved, (hcompleted 0 twoTokens rfl).1.mpr hserved⟩

end LangSystem

end OnnxSim
