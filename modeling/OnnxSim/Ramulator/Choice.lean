import OnnxSim.Ramulator.Trace

/-!
# The scheduler's choice

The head of a queue is the best request of it: one that the policy prefers, if there is one, and of those
that are alike the one that arrived first (`Controller.getHead_best`). `FRFCFS_PriorHit` falls back to
requests that close no row that another request of the queue hits (`Controller.getHead_spares_hits`).
-/

namespace OnnxSim.Ram

namespace Controller

variable {spec : Spec} {c : Controller} {preferred : Request → Option Bool} {a b r head : ReqIter}

/-- `a` comes before `b`: it is preferred and `b` is not, or they are alike and it has arrived first. -/
def Precedes (preferred : Request → Option Bool) (a b : ReqIter) : Prop :=
  preferred a.2 = some true ∧ preferred b.2 = some false ∨
    preferred a.2 = preferred b.2 ∧
      (a.2.arrive < b.2.arrive ∨ a.2.arrive = b.2.arrive ∧ a.1 ≤ b.1)

theorem Precedes.refl (preferred : Request → Option Bool) (a : ReqIter) : Precedes preferred a a :=
  .inr ⟨rfl, .inr ⟨rfl, le_rfl⟩⟩

theorem Precedes.trans {x : ReqIter} (h : Precedes preferred a b) (h' : Precedes preferred b x) :
    Precedes preferred a x := by
  rcases h with ⟨ha, hb⟩ | ⟨hsame, harrive⟩
  · rcases h' with ⟨hb', -⟩ | ⟨hsame', -⟩
    · rw [hb] at hb'
      cases hb'
    · exact .inl ⟨ha, hsame'.symm.trans hb⟩
  · rcases h' with ⟨hb', hx⟩ | ⟨hsame', harrive'⟩
    · exact .inl ⟨hsame.trans hb', hx⟩
    · exact .inr ⟨hsame.trans hsame', by omega⟩

/-- Of two requests, the first of which is further ahead in the queue, the better one is taken. -/
theorem compareBy_precedes (h : compareBy preferred a b = some r) (hab : a.1 ≤ b.1) :
    Precedes preferred r a ∧ Precedes preferred r b := by
  unfold compareBy at h
  obtain ⟨ready1, h1, h⟩ := Option.bind_eq_some_iff.mp h
  obtain ⟨ready2, h2, h⟩ := Option.bind_eq_some_iff.mp h
  by_cases hdiffer : (ready1 ^^ ready2) = true
  · rw [if_pos hdiffer] at h
    obtain rfl := Option.some.inj h
    cases ready1 with
    | true =>
      cases ready2 with
      | true => cases hdiffer
      | false => exact ⟨.refl _ _, .inl ⟨h1, h2⟩⟩
    | false =>
      cases ready2 with
      | true => exact ⟨.inl ⟨h2, h1⟩, .refl _ _⟩
      | false => cases hdiffer
  · rw [if_neg hdiffer] at h
    have hsame : preferred a.2 = preferred b.2 := by
      rw [h1, h2]
      cases ready1 <;> cases ready2 <;> first | rfl | exact absurd rfl hdiffer
    by_cases harrive : a.2.arrive ≤ b.2.arrive
    · rw [if_pos harrive] at h
      obtain rfl := Option.some.inj h
      exact ⟨.refl _ _, .inr ⟨hsame, by omega⟩⟩
    · rw [if_neg harrive] at h
      obtain rfl := Option.some.inj h
      exact ⟨.inr ⟨hsame.symm, by omega⟩, .refl _ _⟩

/-- Along a queue the best so far stays ahead. -/
theorem foldlM_precedes {rest : List ReqIter} {front : ReqIter}
    (hsorted : (front :: rest).Pairwise fun a b => a.1 < b.1)
    (h : rest.foldlM (compareBy preferred) front = some head) :
    ∀ x ∈ front :: rest, Precedes preferred head x := by
  induction rest generalizing front with
  | nil =>
    obtain rfl := Option.some.inj h
    intro x hx
    rw [List.mem_singleton.mp hx]
    exact .refl _ _
  | cons itr rest ih =>
    rw [List.foldlM_cons] at h
    obtain ⟨next, hnext, h⟩ := Option.bind_eq_some_iff.mp h
    obtain ⟨hfront, hrest⟩ := List.pairwise_cons.mp hsorted
    obtain ⟨hitr, hrest'⟩ := List.pairwise_cons.mp hrest
    have hbest := compareBy_precedes hnext (le_of_lt (hfront itr List.mem_cons_self))
    have hnextSorted : (next :: rest).Pairwise fun a b => a.1 < b.1 := by
      refine List.pairwise_cons.mpr ⟨fun x hx => ?_, hrest'⟩
      rcases compareBy_mem hnext with rfl | rfl
      · exact hfront x (List.mem_cons_of_mem _ hx)
      · exact hitr x hx
    have hhead := ih hnextSorted h
    intro x hx
    rcases List.mem_cons.mp hx with rfl | hx
    · exact (hhead next List.mem_cons_self).trans hbest.1
    · rcases List.mem_cons.mp hx with rfl | hx
      · exact (hhead next List.mem_cons_self).trans hbest.2
      · exact hhead x (List.mem_cons_of_mem _ hx)

/-- The places of a queue. -/
theorem mem_places {q : List Request} :
    r ∈ q.zipIdx.map (fun p => (p.2, p.1)) ↔ q[r.1]? = some r.2 := by
  constructor
  · intro h
    obtain ⟨p, hp, rfl⟩ := List.mem_map.mp h
    exact List.mk_mem_zipIdx_iff_getElem?.mp hp
  · intro h
    exact List.mem_map.mpr ⟨(r.2, r.1), List.mk_mem_zipIdx_iff_getElem?.mpr h, rfl⟩

theorem places_sorted (q : List Request) :
    (q.zipIdx.map fun p => (p.2, p.1)).Pairwise fun a b : ReqIter => a.1 < b.1 := by
  rw [List.pairwise_map, List.pairwise_iff_getElem]
  intro i j hi hj hij
  rw [List.getElem_zipIdx, List.getElem_zipIdx]
  simpa using hij

/-- The head of a queue comes before all of its requests. -/
theorem getHead_best {q : List Request} (hscheduler : c.scheduler ≠ .FRFCFS_PriorHit)
    (h : c.getHead spec q = some (some head)) :
    q[head.1]? = some head.2 ∧
      ∀ i r, q[i]? = some r → Precedes (c.preferred spec c.scheduler) head (i, r) := by
  refine ⟨getHead_mem h, fun i r hr => ?_⟩
  have hmem := mem_places.mpr (show q[((i, r) : ReqIter).1]? = some ((i, r) : ReqIter).2 from hr)
  have hsorted := places_sorted q
  unfold getHead at h
  generalize q.zipIdx.map (fun p => (p.2, p.1)) = l at h hmem hsorted
  cases l with
  | nil => cases hmem
  | cons front rest =>
    simp only at h
    obtain ⟨best, hbest, h⟩ := Option.bind_eq_some_iff.mp h
    rw [if_neg hscheduler] at h
    obtain rfl := Option.some.inj (Option.some.inj h)
    exact foldlM_precedes hsorted hbest (i, r) hmem

/-- Two reads that are both ready: the one that arrived first, although it is further behind. -/
theorem getHead_best_ready :
    let c := init HBM_1Gbps .FRFCFS 0
    let q := [{ readAt 0 0 5 with arrive := 3 }, { readAt 1 0 5 with arrive := 1 }]
    c.getHead HBM_1Gbps q = some (some (1, { readAt 1 0 5 with arrive := 1 })) ∧
      ∀ i r, q[i]? = some r →
        Precedes (c.preferred HBM_1Gbps .FRFCFS) (1, { readAt 1 0 5 with arrive := 1 }) (i, r) := by
  have hhead : (init HBM_1Gbps .FRFCFS 0).getHead HBM_1Gbps
      [{ readAt 0 0 5 with arrive := 3 }, { readAt 1 0 5 with arrive := 1 }] =
      some (some (1, { readAt 1 0 5 with arrive := 1 })) := by decide +kernel
  exact ⟨hhead, (getHead_best (by decide) hhead).2⟩

/-! ## Row hits first -/

theorem tryNext_spares {hitReqs : List AddrVec} {start : Option ReqIter} {itr : ReqIter}
    (hstart : ∀ a ∈ start, c.violateHit spec hitReqs a.2 = some false) {next : Option ReqIter}
    (h : c.tryNext spec hitReqs start itr = some next) :
    ∀ a ∈ next, c.violateHit spec hitReqs a.2 = some false := by
  unfold tryNext at h
  obtain ⟨violates, hviolates, h⟩ := Option.bind_eq_some_iff.mp h
  cases violates with
  | true =>
    rw [if_pos rfl] at h
    obtain rfl := Option.some.inj h
    exact hstart
  | false =>
    rw [if_neg Bool.false_ne_true] at h
    intro a ha
    cases start with
    | none =>
      obtain rfl := Option.some.inj h
      obtain rfl := Option.some.inj ha
      exact hviolates
    | some start =>
      obtain ⟨best, hbest, rfl⟩ := Option.map_eq_some_iff.mp h
      obtain rfl := Option.some.inj ha
      rcases compareBy_mem hbest with rfl | rfl
      · exact hstart _ rfl
      · exact hviolates

/-- With `FRFCFS_PriorHit`, a request that has to close a row is the head only if no request of the queue
hits that row. -/
theorem getHead_spares_hits {q : List Request} (hscheduler : c.scheduler = .FRFCFS_PriorHit)
    (h : c.getHead spec q = some (some head)) (hmiss : c.isRowHit spec head.2 = some false)
    (hopen : c.isRowOpen spec head.2 = some true) :
    ∀ r ∈ q, c.isRowHit spec r = some true → closedBy spec r ≠ closedBy spec head.2 := by
  intro r hr hhit hsame
  obtain ⟨i, hi⟩ := List.mem_iff_getElem?.mp hr
  have hmem := mem_places.mpr (show q[((i, r) : ReqIter).1]? = some ((i, r) : ReqIter).2 from hi)
  unfold getHead at h
  generalize q.zipIdx.map (fun p => (p.2, p.1)) = l at h hmem
  cases l with
  | nil => cases hmem
  | cons front rest =>
    simp only at h
    obtain ⟨best, -, h⟩ := Option.bind_eq_some_iff.mp h
    rw [if_pos hscheduler] at h
    obtain ⟨prior, hprior, h⟩ := Option.bind_eq_some_iff.mp h
    cases prior with
    | true =>
      -- the head is a hit
      rw [if_pos rfl] at h
      obtain rfl := Option.some.inj (Option.some.inj h)
      obtain ⟨ready, -, hprior⟩ := Option.bind_eq_some_iff.mp hprior
      cases ready with
      | true =>
        rw [if_pos rfl, hmiss] at hprior
        cases hprior
      | false =>
        rw [if_neg Bool.false_ne_true] at hprior
        cases hprior
    | false =>
      rw [if_neg Bool.false_ne_true] at h
      unfold getHeadPriorHit at h
      obtain ⟨hits, hhits, h⟩ := Option.bind_eq_some_iff.mp h
      have hspared := Loops.foldlM_induction
        (P := fun next : Option ReqIter => ∀ a ∈ next,
          c.violateHit spec (hits.map fun itr => closedBy spec itr.2) a.2 = some false) h
        (fun a ha => by cases ha) (fun _ _ _ _ hstart hstep => tryNext_spares hstart hstep) head rfl
      unfold violateHit at hspared
      rw [hmiss, hopen] at hspared
      have habsent := Option.some.inj hspared
      have hpresent : closedBy spec head.2 ∈ hits.map fun itr => closedBy spec itr.2 :=
        List.mem_map.mpr ⟨(i, r), Loops.mem_of_filterM hhits hmem hhit, hsame⟩
      exact absurd (List.contains_iff_mem.mpr hpresent) (by rw [habsent]; exact Bool.false_ne_true)

/-- Right after the activation of a second bank: the read of another row of the first bank is the head,
and the read that hits in the second bank, not ready yet, is spared. -/
theorem getHead_spares_hits_waiting : ∃ h c, Run HBM_1Gbps .FRFCFS_PriorHit 0 h c ∧
    c.getHead HBM_1Gbps [readAt 0 0 6, readAt 1 0 5] = some (some (0, readAt 0 0 6)) ∧
    c.isRowHit HBM_1Gbps (readAt 1 0 5) = some true ∧
    ∀ r ∈ [readAt 0 0 6, readAt 1 0 5], c.isRowHit HBM_1Gbps r = some true →
      closedBy HBM_1Gbps r ≠ closedBy HBM_1Gbps (readAt 0 0 6) := by
  have hrun : ((reading [readAt 0 0 5, readAt 1 0 5] 5).foldlM (play HBM_1Gbps)
      ([], init HBM_1Gbps .FRFCFS_PriorHit 0)).map
      (fun p => decide (p.2.getHead HBM_1Gbps [readAt 0 0 6, readAt 1 0 5] = some (some (0, readAt 0 0 6)) ∧
        p.2.isRowHit HBM_1Gbps (readAt 1 0 5) = some true ∧ p.2.scheduler = .FRFCFS_PriorHit ∧
        p.2.isRowHit HBM_1Gbps (readAt 0 0 6) = some false ∧
        p.2.isRowOpen HBM_1Gbps (readAt 0 0 6) = some true)) = some true := by
    decide +kernel
  obtain ⟨⟨h, c⟩, hp, hobs⟩ := Option.map_eq_some_iff.mp hrun
  obtain ⟨hhead, hhit, hscheduler, hmiss, hopen⟩ := of_decide_eq_true hobs
  have run : Run HBM_1Gbps .FRFCFS_PriorHit 0 h c := Run.play (fun req hreq => by
    have hmem := mem_reading hreq
    simp only [List.mem_cons, List.not_mem_nil, or_false] at hmem
    rcases hmem with rfl | rfl <;> exact readAt_incoming (by decide) (by decide) (by decide) 5) hp
  exact ⟨h, c, run, hhead, hhit, getHead_spares_hits hscheduler hhead hmiss hopen⟩

end Controller

end OnnxSim.Ram
