import OnnxSim.Language.Lifecycle

/-!
# The length of a cache

A model gives each of its requests caches that are longer by the tokens it computes; `finish_model`
sets the length of the caches by itself. The two agree on a request that is past its first model
(`kvCache_agrees_iff`): the first one computes the prompt, but the caches grow by one more. From
then on the caches are longer than what was computed by that one (`Inv.cacheLength`).
-/

namespace OnnxSim

theorem LangScheduler.CachesFit.getElem? {config : LangConfig} {r : LangRequest} {l : Nat} (h : LangScheduler.CachesFit config r)
    (hl : l < config.numSimLayers) : r.keyCache[l]? = some [r.currentLength, config.cacheDim] ∧
      r.valueCache[l]? = some [r.currentLength, config.cacheDim] := by
  rw [h.1, h.2]
  simp [hl]

namespace LangSystem

open LangScheduler

variable {config : LangConfig} {rows : List TraceRow} {s s' : LangSystem}

/-! ## The computed tokens -/

/-- The tokens of request `id` that model `m` computes. -/
def tokensIn (m : LangModel) (id : Nat) : Nat :=
  ((m.reqs.filter (·.requestId = id)).map (·.seqLength)).sum

/-- The tokens of request `id` that the finished models have computed. -/
def computed (s : LangSystem) (id : Nat) : Nat := (s.finished.map (tokensIn · id)).sum

/-- The first model of a request computes its prompt, each later one a token. -/
def Computed (rows : List TraceRow) (s : LangSystem) : Prop :=
  ∀ id row, rows[id]? = some row →
    s.computed id = if s.served id = 0 then 0 else row.promptLength + (s.served id - 1)

theorem tokensIn_of_notMem {m : LangModel} {id : Nat} (h : id ∉ requestIds m) :
    tokensIn m id = 0 := by
  have hnone : m.reqs.filter (·.requestId = id) = [] := by
    rw [List.filter_eq_nil_iff]
    intro input hinput hid
    exact h (List.mem_map.mpr ⟨input, hinput, by simpa using hid⟩)
  simp [tokensIn, hnone]

theorem tokensIn_of_mem {m : LangModel} {input : LangInput} (hnodup : (requestIds m).Nodup)
    (h : input ∈ m.reqs) : tokensIn m input.requestId = input.seqLength := by
  have hone : m.reqs.filter (·.requestId = input.requestId) = [input] := by
    unfold requestIds at hnodup
    generalize m.reqs = reqs at h hnodup
    induction reqs with
    | nil => cases h
    | cons x reqs ih =>
      rw [List.map_cons, List.nodup_cons] at hnodup
      obtain ⟨hx, hnodup⟩ := hnodup
      rcases List.mem_cons.mp h with rfl | h
      · have hnone : reqs.filter (·.requestId = input.requestId) = [] := by
          rw [List.filter_eq_nil_iff]
          intro y hy hid
          exact hx (List.mem_map.mpr ⟨y, hy, by simpa using hid⟩)
        rw [List.filter_cons_of_pos (by simp), hnone]
      · have hne : x.requestId ≠ input.requestId := fun heq =>
          hx (heq ▸ List.mem_map_of_mem h)
        rw [List.filter_cons_of_neg (by simpa using hne)]
        exact ih h hnodup
  simp [tokensIn, hone]

/-- What an input of the model in flight says of its request. -/
structure InFlight (config : LangConfig) (rows : List TraceRow) (s : LangSystem) (m : LangModel)
    (input : LangInput) (r : LangRequest) (row : TraceRow) : Prop where
  only : s.inFlight = [m]
  nodup : (requestIds m).Nodup
  active : r ∈ s.lang.activeRequests
  input_eq : input = inputOf r
  row_eq : rows[r.requestId]? = some row
  fits : CachesFit config r
  progress : Progress row (s.served r.requestId) r

theorem Inv.input {m : LangModel} {input : LangInput} {i : Nat} (h : Inv config rows s)
    (hm : s.inFlight[i]? = some m) (hinput : input ∈ m.reqs) :
    ∃ r row, InFlight config rows s m input r row := by
  obtain ⟨-, hflight, hqueue⟩ := h.inFlight_eq hm
  have hmodels : s.models = [m] := by
    unfold models
    rw [hqueue, hflight, List.nil_append]
  have hrunning := h.running
  have hinputs := h.inputs
  rw [hmodels, List.flatMap_singleton] at hrunning hinputs
  obtain ⟨r, hr, heq⟩ := hinputs input hinput
  obtain ⟨hfits, row, hrow, hprogress, -⟩ := h.account.active r hr
  exact ⟨r, row, hflight, hrunning.nodup, hr, heq, hrow, hfits, hprogress⟩

/-- A request in its first model is told the prompt, in a later one a token. -/
theorem InFlight.seqLength {m : LangModel} {input : LangInput} {r : LangRequest} {row : TraceRow}
    (h : InFlight config rows s m input r row) :
    input.seqLength = if s.served r.requestId = 0 then row.promptLength else 1 := by
  rw [h.input_eq]
  unfold inputOf
  simp only [h.progress.genPhase, h.progress.promptLength]
  by_cases hk : s.served r.requestId = 0
  · simp [hk]
  · simp [hk, Nat.pos_of_ne_zero hk]

theorem computed_snoc {m : LangModel} {l : LangScheduler} {flight : List LangModel} {id : Nat} :
    computed { lang := l, inFlight := flight, finished := s.finished ++ [m] } id =
      s.computed id + tokensIn m id := by
  unfold computed
  rw [List.map_append, List.sum_append]
  simp

theorem served_snoc_eq {m : LangModel} {l : LangScheduler} {flight : List LangModel} {id : Nat} :
    served { lang := l, inFlight := flight, finished := s.finished ++ [m] } id =
      s.served id + if id ∈ requestIds m then 1 else 0 := by
  unfold served
  rw [List.countP_append, List.countP_singleton]
  simp

theorem Computed.step {a : Act} (hinv : Inv config rows s) (h : Computed rows s)
    (hs : step config s a = some s') : Computed rows s' := by
  cases a with
  | cycle =>
    obtain rfl := Option.some.inj hs
    exact h
  | popModel =>
    obtain ⟨⟨m, l⟩, -, hs⟩ := Option.bind_eq_some_iff.mp hs
    obtain rfl := Option.some.inj hs
    exact h
  | finishModel i =>
    obtain ⟨m, hm, hs⟩ := Option.bind_eq_some_iff.mp hs
    obtain ⟨l, -, hs⟩ := Option.bind_eq_some_iff.mp hs
    obtain rfl := Option.some.inj hs
    intro id row hrow
    rw [computed_snoc, served_snoc_eq, h id row hrow]
    by_cases hid : id ∈ requestIds m
    · obtain ⟨input, hinput, rfl⟩ := List.mem_map.mp hid
      obtain ⟨r, row', hflight⟩ := hinv.input hm hinput
      have hrid : input.requestId = r.requestId := congrArg LangInput.requestId hflight.input_eq
      rw [tokensIn_of_mem hflight.nodup hinput, hflight.seqLength, ← hrid, if_pos hid]
      obtain rfl : row = row' := by
        have hrow' := hflight.row_eq
        rw [← hrid, hrow] at hrow'
        exact Option.some.inj hrow'
      by_cases hk : s.served input.requestId = 0
      · simp [hk]
      · rw [if_neg hk, if_neg hk, if_neg (Nat.succ_ne_zero _)]
        omega
    · rw [tokensIn_of_notMem hid, if_neg hid]
      simp

theorem Run.computed {h : List (LangSystem × Act)} (run : Run config rows h s) :
    Computed rows s :=
  (Machine.Run.invariant (P := fun s => Inv config rows s ∧ Computed rows s) run
    ⟨init_inv, fun _ _ _ => rfl⟩
    fun _ _ _ hinv hstep => ⟨hinv.1.step hstep, Computed.step hinv.1 hinv.2 hstep⟩).2

/-! ## The caches that `finish_model` sets -/

/-- The caches of request `j` of a finished model are the outputs of the model, in every layer. -/
def CachesAgree (config : LangConfig) (m : LangModel) (j : Nat) (s : LangSystem) : Prop :=
  ∀ input, m.reqs[j]? = some input → ∀ r ∈ s.lang.activeRequests ++ s.lang.completed,
    r.requestId = input.requestId → ∀ l < config.numSimLayers,
      r.keyCache[l]? = (m.kvCacheConcat l).keyOutputs[j]? ∧
        r.valueCache[l]? = (m.kvCacheConcat l).valueOutputs[j]?

/-- The caches of a request are as long as what was computed of it. -/
def CachesTrue (config : LangConfig) (rows : List TraceRow) (s : LangSystem) : Prop :=
  ∀ r ∈ s.lang.activeRequests ++ s.lang.completed, ∀ row, rows[r.requestId]? = some row →
    ∀ l < config.numSimLayers,
      (r.keyCache[l]?.bind List.head?) = some (row.cachedLen + s.computed r.requestId) ∧
        (r.valueCache[l]?.bind List.head?) = some (row.cachedLen + s.computed r.requestId)

/-- The outputs that a model defines for a request. -/
theorem InFlight.outputs {m : LangModel} {input : LangInput} {r : LangRequest} {row : TraceRow}
    {j l : Nat} (h : InFlight config rows s m input r row) (hj : m.reqs[j]? = some input)
    (hl : l < config.numSimLayers) :
    (m.kvCacheConcat l).keyOutputs[j]? =
        some [r.currentLength + input.seqLength, config.cacheDim] ∧
      (m.kvCacheConcat l).valueOutputs[j]? =
        some [r.currentLength + input.seqLength, config.cacheDim] := by
  have hkey : input.keyCache.getD l [] = [r.currentLength, config.cacheDim] := by
    rw [h.input_eq]
    simp [inputOf, h.fits.1, List.getD_eq_getElem?_getD, hl]
  have hvalue : input.valueCache.getD l [] = [r.currentLength, config.cacheDim] := by
    rw [h.input_eq]
    simp [inputOf, h.fits.2, List.getD_eq_getElem?_getD, hl]
  unfold KVCacheConcat.keyOutputs KVCacheConcat.valueOutputs LangModel.kvCacheConcat
  simp only [List.getElem?_zipWith, List.getElem?_map, hj, Option.map_some]
  exact ⟨congrArg (fun dims => some (growDims dims input.seqLength)) hkey,
    congrArg (fun dims => some (growDims dims input.seqLength)) hvalue⟩

/-- A request that a finished model contained is active or has completed. -/
theorem Inv.located_of_served {id : Nat} {row : TraceRow} (h : Inv config rows s)
    (hrow : rows[id]? = some row) (hserved : 0 < s.served id) :
    ∃ r ∈ s.lang.activeRequests ++ s.lang.completed, r.requestId = id := by
  have hid : id ∈ (s.lang.requestQueue ++ s.lang.activeRequests ++ s.lang.completed).map
      (·.requestId) := by
    rw [h.account.located.mem_iff, List.mem_range]
    exact (List.getElem?_eq_some_iff.mp hrow).1
  obtain ⟨r, hr, rfl⟩ := List.mem_map.mp hid
  rw [List.append_assoc] at hr
  rcases List.mem_append.mp hr with hqueued | hr
  · have hzero := (h.account.queued r hqueued).1
    omega
  · exact ⟨r, hr, rfl⟩

/-- Every request that was made active, and how far it is. -/
theorem Inv.progress {r : LangRequest} (h : Inv config rows s)
    (hr : r ∈ s.lang.activeRequests ++ s.lang.completed) : CachesFit config r ∧
      ∃ row, rows[r.requestId]? = some row ∧ Progress row (s.served r.requestId) r := by
  rcases List.mem_append.mp hr with hr | hr
  · obtain ⟨hfit, row, hrow, hprogress, -⟩ := h.account.active r hr
    exact ⟨hfit, row, hrow, hprogress⟩
  · obtain ⟨hfit, row, hrow, hprogress, -⟩ := h.account.completed r hr
    exact ⟨hfit, row, hrow, hprogress⟩

/-- `finish_model` sets the caches of a request to the outputs of its model exactly when the request
is past its first model. -/
theorem kvCache_agrees_iff {m : LangModel} {input : LangInput} {i j : Nat}
    (hinv : Inv config rows s) (hm : s.inFlight[i]? = some m)
    (hs : step config s (.finishModel i) = some s') (hj : m.reqs[j]? = some input) :
    CachesAgree config m j s' ↔ config.numSimLayers = 0 ∨ 0 < s.served input.requestId := by
  obtain ⟨r, row, hflight⟩ := hinv.input hm (List.mem_of_getElem? hj)
  have hrid : r.requestId = input.requestId := (congrArg LangInput.requestId hflight.input_eq).symm
  have hinv' := hinv.step hs
  have hserved : s'.served input.requestId = s.served input.requestId + 1 := by
    obtain ⟨m', hm', hs⟩ := Option.bind_eq_some_iff.mp hs
    obtain ⟨l, -, hs⟩ := Option.bind_eq_some_iff.mp hs
    obtain rfl := Option.some.inj hs
    obtain rfl := Option.some.inj (hm.symm.trans hm')
    have hin : input.requestId ∈ requestIds m := List.mem_map_of_mem (List.mem_of_getElem? hj)
    rw [served_snoc_eq, if_pos hin]
  have hrow := hflight.row_eq
  have hseq := hflight.seqLength
  have hbefore := hflight.progress.currentLength
  rw [hrid] at hrow hseq hbefore
  -- the length after the model, whether the request goes on or has completed
  have hafter : ∀ q ∈ s'.lang.activeRequests ++ s'.lang.completed,
      q.requestId = input.requestId → CachesFit config q ∧
        q.currentLength = row.cachedLen + (row.promptLength + (s.served input.requestId + 1)) := by
    intro q hq hqid
    obtain ⟨hfit, row', hrow', hprogress⟩ := hinv'.progress hq
    rw [hqid, hrow] at hrow'
    obtain rfl := Option.some.inj hrow'
    have hlength := hprogress.currentLength
    rw [hqid, hserved, if_neg (Nat.succ_ne_zero _)] at hlength
    exact ⟨hfit, hlength⟩
  constructor
  · intro hagree
    rcases Nat.eq_zero_or_pos config.numSimLayers with hzero | hpos
    · exact .inl hzero
    · obtain ⟨q, hq, hqid⟩ := hinv'.located_of_served hrow (by omega)
      obtain ⟨hfit, hlength⟩ := hafter q hq hqid
      obtain ⟨hkey, -⟩ := hagree input hj q hq hqid 0 hpos
      rw [(hfit.getElem? hpos).1, (hflight.outputs hj hpos).1] at hkey
      have heq : q.currentLength = r.currentLength + input.seqLength := by simpa using hkey
      right
      rw [hlength, hbefore, hseq] at heq
      by_contra hzero
      have hzero' : s.served input.requestId = 0 := by omega
      rw [hzero', if_pos rfl, if_pos rfl] at heq
      omega
  · rintro hcond input' hj' q hq hqid l hl
    obtain rfl := Option.some.inj (hj.symm.trans hj')
    obtain ⟨hfit, hlength⟩ := hafter q hq hqid
    have hpast : s.served input.requestId ≠ 0 := by omega
    have heq : q.currentLength = r.currentLength + input.seqLength := by
      rw [hlength, hbefore, hseq, if_neg hpast, if_neg hpast]
      omega
    rw [(hfit.getElem? hl).1, (hfit.getElem? hl).2, (hflight.outputs hj hl).1,
      (hflight.outputs hj hl).2, heq]
    exact ⟨rfl, rfl⟩

/-- The caches are longer by one than what was computed, once a model has finished. -/
theorem Inv.cacheLength {r : LangRequest} {row : TraceRow} (h : Inv config rows s)
    (hcomputed : Computed rows s) (hr : r ∈ s.lang.activeRequests ++ s.lang.completed)
    (hrow : rows[r.requestId]? = some row) :
    r.currentLength = row.cachedLen + s.computed r.requestId +
      if s.served r.requestId = 0 then 0 else 1 := by
  obtain ⟨-, row', hrow', hprogress⟩ := h.progress hr
  obtain rfl := Option.some.inj (hrow.symm.trans hrow')
  rw [hprogress.currentLength, hcomputed _ _ hrow]
  split <;> omega

/-- The caches are as long as what was computed exactly when no request has been served. -/
theorem Inv.cachesTrue_iff (h : Inv config rows s) (hcomputed : Computed rows s) :
    CachesTrue config rows s ↔
      config.numSimLayers = 0 ∨ ∀ id < rows.length, s.served id = 0 := by
  constructor
  · intro htrue
    rcases Nat.eq_zero_or_pos config.numSimLayers with hzero | hpos
    · exact .inl hzero
    · refine .inr fun id hid => ?_
      obtain ⟨row, hrow⟩ : ∃ row, rows[id]? = some row := ⟨_, List.getElem?_eq_getElem hid⟩
      by_contra hne
      obtain ⟨r, hr, rfl⟩ := h.located_of_served hrow (Nat.pos_of_ne_zero hne)
      obtain ⟨hfit, -⟩ := h.progress hr
      obtain ⟨hkey, -⟩ := htrue r hr row hrow 0 hpos
      rw [(hfit.getElem? hpos).1] at hkey
      have hlength : r.currentLength = row.cachedLen + s.computed r.requestId := by simpa using hkey
      have hcache := h.cacheLength hcomputed hr hrow
      rw [if_neg hne] at hcache
      omega
  · intro hcond r hr row hrow l hl
    obtain ⟨hfit, -⟩ := h.progress hr
    have hzero : s.served r.requestId = 0 := by
      rcases hcond with hnone | hall
      · omega
      · exact hall _ (List.getElem?_eq_some_iff.mp hrow).1
    have hcache := h.cacheLength hcomputed hr hrow
    rw [if_pos hzero, Nat.add_zero] at hcache
    rw [(hfit.getElem? hl).1, (hfit.getElem? hl).2, hcache]
    exact ⟨rfl, rfl⟩

/-- Every request of a model that finishes is past its first model, or no layer is simulated. -/
def PastPrefill (config : LangConfig) (s : LangSystem) (a : Act) : Prop :=
  ∀ i m, a = .finishModel i → s.inFlight[i]? = some m →
    config.numSimLayers = 0 ∨ ∀ input ∈ m.reqs, 0 < s.served input.requestId

theorem cachesTrue_step_iff {a : Act} (hinv : Inv config rows s) (hcomputed : Computed rows s)
    (htrue : CachesTrue config rows s) (hs : step config s a = some s') :
    CachesTrue config rows s' ↔ PastPrefill config s a := by
  rw [(hinv.step hs).cachesTrue_iff (hcomputed.step hinv hs)]
  rw [hinv.cachesTrue_iff hcomputed] at htrue
  cases a with
  | cycle =>
    obtain rfl := Option.some.inj hs
    exact ⟨fun _ _ _ ha _ => (nomatch ha), fun _ => htrue⟩
  | popModel =>
    obtain ⟨⟨m, l⟩, -, hs⟩ := Option.bind_eq_some_iff.mp hs
    obtain rfl := Option.some.inj hs
    exact ⟨fun _ _ _ ha _ => (nomatch ha), fun _ => htrue⟩
  | finishModel i =>
    obtain ⟨m, hm, hs⟩ := Option.bind_eq_some_iff.mp hs
    obtain ⟨l, -, hs⟩ := Option.bind_eq_some_iff.mp hs
    obtain rfl := Option.some.inj hs
    have hids : ∀ input ∈ m.reqs, input.requestId < rows.length := by
      intro input hinput
      obtain ⟨r, row, hflight⟩ := hinv.input hm hinput
      rw [show input.requestId = r.requestId from congrArg LangInput.requestId hflight.input_eq]
      exact (List.getElem?_eq_some_iff.mp hflight.row_eq).1
    constructor
    · rintro hzero i' m' hact hm'
      obtain rfl : i = i' := by simpa using hact
      obtain rfl := Option.some.inj (hm.symm.trans hm')
      refine hzero.imp_right fun hall input hinput => ?_
      have hserved := hall _ (hids input hinput)
      have hin : input.requestId ∈ requestIds m := List.mem_map_of_mem hinput
      rw [served_snoc_eq, if_pos hin] at hserved
      omega
    · intro hpast
      rcases htrue with hnone | hall
      · exact .inl hnone
      · refine (hpast i m rfl hm).imp_right fun hserved id hid => ?_
        have hout : id ∉ requestIds m := by
          intro hin
          obtain ⟨input, hinput, rfl⟩ := List.mem_map.mp hin
          have hpos := hserved input hinput
          have hzero := hall _ hid
          omega
        rw [served_snoc_eq, if_neg hout]
        exact hall id hid

/-- What `finish_model` makes of the caches. On a request of a finished model it agrees with the
outputs of the model exactly when the request is past its first model; and the caches are as long
as what was computed throughout exactly in the runs in which no model finishes a prefill. -/
theorem kv_cache_lengths {h : List (LangSystem × Act)} (run : Run config rows h s) :
    (∀ t i m t', (t, .finishModel i) ∈ h → t.inFlight[i]? = some m →
      step config t (.finishModel i) = some t' → ∀ j input, m.reqs[j]? = some input →
        (CachesAgree config m j t' ↔
          config.numSimLayers = 0 ∨ 0 < t.served input.requestId)) ∧
    (Machine.Always (CachesTrue config rows) h s ↔ Machine.EachStep (PastPrefill config) h) := by
  constructor
  · intro t i m t' hmem hm ht j input hj
    obtain ⟨h', u, run', -⟩ := Machine.Run.of_mem run hmem
    have hinv : Inv config rows t := Run.inv run'
    exact kvCache_agrees_iff hinv hm ht hj
  · have hstart : CachesTrue config rows (init rows) := fun r hr => nomatch hr
    have hiff := Machine.Run.always_iff_eachStep run
      (I := fun s => Inv config rows s ∧ Computed rows s) (P := CachesTrue config rows)
      (R := fun _ _ => True) (C := PastPrefill config)
      ⟨init_inv, fun _ _ _ => rfl⟩
      (fun _ _ _ hinv hstep => ⟨hinv.1.step hstep, Computed.step hinv.1 hinv.2 hstep⟩) hstart
      fun t a u hinv htrue hstep => by
        rw [and_true]
        exact cachesTrue_step_iff hinv.1 hinv.2 htrue hstep
    rw [← hiff]
    exact ⟨fun hall => ⟨hall, fun _ _ => trivial⟩, fun hall => hall.1⟩

/-- The second model of a request keeps the outputs. -/
theorem kv_cache_lengths_secondModel : ∃ t m t', t.inFlight[0]? = some m ∧
    step oneLayer t (.finishModel 0) = some t' ∧ m.reqs.length = 1 ∧ CachesAgree oneLayer m 0 t' := by
  have hfacts : (((twoModels.take 5).foldlM (step oneLayer) (init [twoTokens])).bind fun t =>
      (step oneLayer t (.finishModel 0)).map fun _ => (t.inFlight, t.served 0)) =
      some ([{ id := 1, reqs := [⟨0, 1, 5, [[5, 8]], [[5, 8]]⟩] }], 1) := by
    decide +kernel
  obtain ⟨t, ht, hfacts⟩ := Option.bind_eq_some_iff.mp hfacts
  obtain ⟨t', ht', hfacts⟩ := Option.map_eq_some_iff.mp hfacts
  obtain ⟨hflight, hserved⟩ := Prod.mk.inj hfacts
  obtain ⟨h, -, run⟩ := Machine.Run.of_foldlM ht
  have hm : t.inFlight[0]? = some { id := 1, reqs := [⟨0, 1, 5, [[5, 8]], [[5, 8]]⟩] } := by
    rw [hflight]
    rfl
  have run' : Run oneLayer [twoTokens] (h ++ [(t, .finishModel 0)]) t' := Machine.Run.snoc run ht'
  have hagree := (kv_cache_lengths run').1 t 0 _ t' (by simp) hm ht' 0 _ rfl
  exact ⟨t, _, t', hm, ht', rfl, hagree.mpr (.inr (by rw [hserved]; exact Nat.one_pos))⟩

/-- The first model of a request with a prompt of four tokens computes them, and the request is left
with caches of length five. -/
theorem kv_cache_prefill_longer : ∃ h s m s', Run oneLayer [twoTokens] h s ∧
    s.inFlight[0]? = some m ∧ step oneLayer s (.finishModel 0) = some s' ∧
    (m.kvCacheConcat 0).keyOutputs = [[4, 8]] ∧
    s'.lang.activeRequests.map (·.keyCache) = [[[5, 8]]] ∧ s'.computed 0 = 4 ∧
    ¬ CachesAgree oneLayer m 0 s' ∧ ¬ CachesTrue oneLayer [twoTokens] s' := by
  have hfacts : (((twoModels.take 2).foldlM (step oneLayer) (init [twoTokens])).bind fun s =>
      (step oneLayer s (.finishModel 0)).map fun s' =>
        (s.inFlight, s.served 0, s'.lang.activeRequests.map (·.keyCache), s'.computed 0)) =
      some ([{ id := 0, reqs := [⟨0, 4, 0, [[0, 8]], [[0, 8]]⟩] }], 0, [[[5, 8]]], 4) := by
    decide +kernel
  obtain ⟨s, hs, hfacts⟩ := Option.bind_eq_some_iff.mp hfacts
  obtain ⟨s', hs', hfacts⟩ := Option.map_eq_some_iff.mp hfacts
  obtain ⟨hflight, hfacts⟩ := Prod.mk.inj hfacts
  obtain ⟨hserved, hfacts⟩ := Prod.mk.inj hfacts
  obtain ⟨hcaches, hcomputed⟩ := Prod.mk.inj hfacts
  obtain ⟨h, -, run⟩ := Machine.Run.of_foldlM hs
  have run : Run oneLayer [twoTokens] h s := run
  have hm : s.inFlight[0]? = some { id := 0, reqs := [⟨0, 4, 0, [[0, 8]], [[0, 8]]⟩] } := by
    rw [hflight]
    rfl
  refine ⟨h, s, _, s', run, hm, hs', rfl, hcaches, hcomputed, fun hagree => ?_, fun htrue => ?_⟩
  · rcases (kvCache_agrees_iff run.inv hm hs' rfl).mp hagree with hlayers | hpos
    · exact absurd hlayers (by decide)
    · exact absurd hpos (by simp [hserved])
  · obtain ⟨r, hr, hkey⟩ : ∃ r ∈ s'.lang.activeRequests, r.keyCache = [[5, 8]] := by
      have hin : [[5, 8]] ∈ s'.lang.activeRequests.map (·.keyCache) := by simp [hcaches]
      exact List.mem_map.mp hin
    have hmem : r ∈ s'.lang.activeRequests ++ s'.lang.completed := List.mem_append_left _ hr
    obtain ⟨-, row, hrow, -⟩ := (run.inv.step hs').progress hmem
    obtain ⟨hid, rfl⟩ : r.requestId = 0 ∧ twoTokens = row := by
      obtain ⟨hlt, hget⟩ := List.getElem?_eq_some_iff.mp hrow
      have hzero : r.requestId = 0 := by simpa using hlt
      simp only [hzero, List.getElem_cons_zero] at hget
      exact ⟨hzero, hget⟩
    obtain ⟨hlength, -⟩ := htrue r hmem twoTokens hrow 0 Nat.one_pos
    rw [hkey, hid, hcomputed] at hlength
    exact absurd hlength (by decide)

end LangSystem

end OnnxSim
