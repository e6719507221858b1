import Mathlib.Data.List.Perm.Basic
import OnnxSim.Ramulator.Invariant

/-!
# A call of `tick`

Of what holds between the calls, each part of `tick` keeps its share and fails no assertion, but for the
injection of refreshes into a queue that is full (`Controller.Inv.tick`). The command that a call issues
fits the open rows, and has been waited for (`Controller.Issued`).
-/

namespace OnnxSim.Ram

variable {spec : Spec} {id : Nat} {log : List Issue} {cmd : Command} {addr : AddrVec}

namespace DRAM

variable {d : DRAM}

/-- No row is looked up for a command without such a function. -/
theorem checkRow_none (hhit : ∀ level, spec.rowhit level cmd = none)
    (hopen : ∀ level, spec.rowopen level cmd = none) :
    d.checkRowHit spec cmd addr = some false ∧ d.checkRowOpen spec cmd addr = some false := by
  induction d with
  | leaf n =>
    unfold checkRowHit checkRowOpen
    rw [hhit, hopen]
    exact ⟨rfl, rfl⟩
  | branch n size children ih =>
    unfold checkRowHit checkRowOpen
    simp only [hhit, hopen]
    by_cases hneg : addr.get (n.level.toNat + 1) < 0
    · rw [if_pos hneg, if_pos hneg]
      exact ⟨rfl, rfl⟩
    · rw [if_neg hneg, if_neg hneg]
      exact ih _

end DRAM

namespace Controller

variable {c c' : Controller} {name : QueueName} {r : Request}

/-! ## The choice of a request -/

/-- The command that a queued request needs fits. -/
theorem Inv.getFirstCmd (hstd : Standard spec) (h : Inv spec id log c) (hr : Kind spec id name r) :
    ∃ first, c.getFirstCmd spec r = some first ∧ Fits spec id log first r.addrVec ∧
      (first = spec.translate r.type ∨
        (name ≠ .otherq ∧ (first = .ACT ∨ first = .PRE ∨ first = .PDX)) ∨
        name = .otherq ∧ first = .PREA) := by
  have haccess : name ≠ .otherq → (r.type = .READ ∨ r.type = .WRITE) → Addressed spec id r.addrVec →
      ∃ first, c.getFirstCmd spec r = some first ∧ Fits spec id log first r.addrVec ∧
        (first = spec.translate r.type ∨
          (name ≠ .otherq ∧ (first = .ACT ∨ first = .PRE ∨ first = .PDX)) ∨
          name = .otherq ∧ first = .PREA) := by
    intro hname htype haddr
    have hcmd : spec.translate r.type = .RD ∨ spec.translate r.type = .WR := by
      rcases htype with htype | htype
      · exact .inl (by rw [htype, hstd.read])
      · exact .inr (by rw [htype, hstd.write])
    obtain ⟨first, hfirst, hfits, hcases⟩ := h.stands.decode_fits hstd hcmd haddr h.level
    refine ⟨first, hfirst, hfits, ?_⟩
    rcases hcases with hsame | hother
    · exact .inl hsame
    · exact .inr (.inl ⟨hname, hother⟩)
  cases name with
  | readq => exact haccess (by decide) (.inl hr.1) hr.2
  | writeq => exact haccess (by decide) (.inr hr.1) hr.2
  | actq => exact haccess (by decide) hr.1 hr.2.1
  | otherq =>
    obtain ⟨htype, rank, hrank, haddr⟩ := hr
    have hrankAddr : RankAddr spec id r.addrVec := by
      rw [haddr]
      exact .of_rank hrank
    obtain ⟨first, hfirst, hfits, hcases⟩ := h.stands.decode_refresh_fits hstd hrankAddr h.level
    unfold Controller.getFirstCmd
    rw [htype]
    refine ⟨first, hfirst, hfits, ?_⟩
    rcases hcases with hsame | hother
    · exact .inl hsame
    · exact .inr (.inr ⟨rfl, hother⟩)

theorem Kind.isRow (hr : Kind spec id name r) (hstd : Standard spec)
    (h : c.channel.Stands spec log [(id : Int)]) :
    (∃ hit, c.isRowHit spec r = some hit) ∧ ∃ conflict, c.isRowOpen spec r = some conflict := by
  have haccess : (r.type = .READ ∨ r.type = .WRITE) → Addressed spec id r.addrVec →
      (∃ hit, c.isRowHit spec r = some hit) ∧ ∃ conflict, c.isRowOpen spec r = some conflict := by
    intro htype haddr
    have hcmd : spec.translate r.type = .RD ∨ spec.translate r.type = .WR := by
      rcases htype with htype | htype
      · exact .inl (by rw [htype, hstd.read])
      · exact .inr (by rw [htype, hstd.write])
    obtain ⟨hhit, hopen⟩ := h.checkRow hstd hcmd haddr.inChannel
    exact ⟨Option.isSome_iff_exists.mp hhit, Option.isSome_iff_exists.mp hopen⟩
  cases name with
  | readq => exact haccess (.inl hr.1) hr.2
  | writeq => exact haccess (.inr hr.1) hr.2
  | actq => exact haccess hr.1 hr.2.1
  | otherq =>
    have hnone : (∀ level, spec.rowhit level (spec.translate r.type) = none) ∧
        ∀ level, spec.rowopen level (spec.translate r.type) = none := by
      rw [hr.1]
      rcases hstd.refresh with hrefresh | hrefresh
      all_goals
        rw [hrefresh]
        constructor
        · intro level
          rw [hstd.rowhit _ _ (by decide)]
          cases level <;> rfl
        · intro level
          rw [hstd.rowopen _ _ (by decide)]
          cases level <;> rfl
    obtain ⟨hhit, hopen⟩ := DRAM.checkRow_none (d := c.channel) hnone.1 hnone.2
    exact ⟨⟨_, hhit⟩, _, hopen⟩

/-- What the functions of `compare` look up is there. -/
theorem Inv.preferred (hstd : Standard spec) (h : Inv spec id log c) (hr : Kind spec id name r)
    (type : SchedulerType) : ∃ b, c.preferred spec type r = some b := by
  obtain ⟨first, hfirst, -⟩ := h.getFirstCmd hstd hr
  obtain ⟨⟨hit, hhit⟩, -⟩ := hr.isRow hstd h.stands
  have hready : c.isReady spec r = some (c.isReadyCmd spec first r.addrVec) := by
    unfold isReady
    rw [hfirst]
    rfl
  cases type with
  | FCFS => exact ⟨true, rfl⟩
  | FRFCFS => exact ⟨_, hready⟩
  | FRFCFS_Cap =>
    change ∃ b, (c.isReady spec r).map _ = some b
    rw [hready]
    exact ⟨_, rfl⟩
  | FRFCFS_PriorHit =>
    change ∃ b, ((c.isReady spec r).bind fun ready =>
      if ready = true then c.isRowHit spec r else some false) = some b
    rw [hready]
    cases c.isReadyCmd spec first r.addrVec with
    | false => exact ⟨false, rfl⟩
    | true => exact ⟨hit, hhit⟩

theorem Inv.compare (hstd : Standard spec) (h : Inv spec id log c) (type : SchedulerType)
    {a b : ReqIter} (ha : Kind spec id name a.2) (hb : Kind spec id name b.2) :
    ∃ head, c.compare spec type a b = some head ∧ Kind spec id name head.2 := by
  obtain ⟨ready1, h1⟩ := h.preferred hstd ha type
  obtain ⟨ready2, h2⟩ := h.preferred hstd hb type
  unfold Controller.compare compareBy
  rw [h1, h2]
  simp only [Option.bind_eq_bind, Option.bind_some]
  split
  all_goals
    split
    · exact ⟨a, rfl, ha⟩
    · exact ⟨b, rfl, hb⟩

theorem Inv.violateHit (hstd : Standard spec) (h : Inv spec id log c) (hr : Kind spec id name r)
    (hitReqs : List AddrVec) : ∃ b, c.violateHit spec hitReqs r = some b := by
  obtain ⟨⟨hit, hhit⟩, conflict, hconflict⟩ := hr.isRow hstd h.stands
  unfold Controller.violateHit
  rw [hhit, hconflict]
  cases hit <;> cases conflict <;> exact ⟨_, rfl⟩

theorem Inv.tryNext (hstd : Standard spec) (h : Inv spec id log c) (hitReqs : List AddrVec)
    {head : Option ReqIter} {itr : ReqIter} (hhead : ∀ a ∈ head, Kind spec id name a.2)
    (hitr : Kind spec id name itr.2) :
    ∃ next, c.tryNext spec hitReqs head itr = some next ∧ ∀ a ∈ next, Kind spec id name a.2 := by
  obtain ⟨violates, hviolates⟩ := h.violateHit hstd hitr hitReqs
  unfold Controller.tryNext
  rw [hviolates]
  cases violates with
  | true => exact ⟨head, rfl, hhead⟩
  | false =>
    cases head with
    | none =>
      refine ⟨some itr, rfl, fun a ha => ?_⟩
      obtain rfl := Option.some.inj ha
      exact hitr
    | some head =>
      obtain ⟨next, hnext, hkind⟩ := h.compare hstd .FRFCFS (hhead head rfl) hitr
      refine ⟨some next, by simp [hnext], fun a ha => ?_⟩
      obtain rfl := Option.some.inj ha
      exact hkind

theorem Inv.getHead (hstd : Standard spec) (h : Inv spec id log c) {q : List Request}
    (hq : ∀ r ∈ q, Kind spec id name r) : ∃ head, c.getHead spec q = some head := by
  have hkind : ∀ itr ∈ q.zipIdx.map (fun p => (p.2, p.1)), Kind spec id name itr.2 := by
    intro itr hitr
    obtain ⟨p, hp, rfl⟩ := List.mem_map.mp hitr
    exact hq _ (List.fst_mem_of_mem_zipIdx hp)
  unfold Controller.getHead
  generalize q.zipIdx.map (fun p => (p.2, p.1)) = l at hkind
  cases l with
  | nil => exact ⟨none, rfl⟩
  | cons front rest =>
    obtain ⟨head, hhead, hheadKind⟩ : ∃ head, rest.foldlM (c.compare spec c.scheduler) front =
        some head ∧ Kind spec id name head.2 :=
      Loops.exists_foldlM_of
        (P := fun itr : ReqIter => Kind spec id name itr.2)
        (fun _ ha itr hitr => h.compare hstd _ ha (hkind itr (List.mem_cons_of_mem _ hitr)))
        (hkind front List.mem_cons_self)
    simp only [hhead, Option.bind_eq_bind, Option.bind_some]
    split
    · obtain ⟨best, hbest⟩ := h.preferred hstd hheadKind .FRFCFS_PriorHit
      rw [hbest]
      cases best with
      | true => exact ⟨_, rfl⟩
      | false =>
        have hhits : (front :: rest).filterM (fun itr : ReqIter => c.isRowHit spec itr.2) =
            some ((front :: rest).filter fun itr => (c.isRowHit spec itr.2).getD false) :=
          Loops.filterM_eq fun itr hitr => by
            obtain ⟨⟨hit, hhit⟩, -⟩ := (hkind itr hitr).isRow hstd h.stands
            rw [hhit]
            rfl
        obtain ⟨next, hnext, -⟩ : ∃ next, (front :: rest).foldlM
            (c.tryNext spec (((front :: rest).filter fun itr =>
              (c.isRowHit spec itr.2).getD false).map fun itr => closedBy spec itr.2)) none =
            some next ∧ ∀ a ∈ next, Kind spec id name a.2 :=
          Loops.exists_foldlM_of
            (P := fun head : Option ReqIter => ∀ a ∈ head, Kind spec id name a.2)
            (fun _ ha itr hitr => h.tryNext hstd _ ha (hkind itr hitr))
            (fun a ha => by cases ha)
        refine ⟨next, ?_⟩
        simp only [Option.bind_some, Bool.false_eq_true, if_false, getHeadPriorHit, hhits,
          Option.bind_eq_bind, hnext]
    · exact ⟨_, rfl⟩

theorem Inv.readyHead (hstd : Standard spec) (h : Inv spec id log c) (name : QueueName) :
    ∃ found, c.readyHead spec name = some found := by
  obtain ⟨head, hhead⟩ := h.getHead hstd (h.kinds name)
  unfold Controller.readyHead
  rw [hhead]
  cases head with
  | none => exact ⟨none, rfl⟩
  | some head =>
    have hmem := getHead_mem hhead
    obtain ⟨first, hfirst, -⟩ := h.getFirstCmd hstd (h.kinds name _ (List.mem_of_getElem? hmem))
    simp only [Option.bind_eq_bind, Option.bind_some, hfirst]
    exact ⟨_, rfl⟩

theorem Inv.choose (hstd : Standard spec) (h : Inv spec id log c) :
    ∃ choice, c.choose spec = some choice := by
  obtain ⟨first, hfirst⟩ := h.readyHead hstd .actq
  unfold Controller.choose
  rw [hfirst]
  cases first with
  | some found => exact ⟨_, rfl⟩
  | none =>
    obtain ⟨second, hsecond⟩ := h.readyHead hstd
      (if c.otherq.length ≠ 0 then .otherq else if c.writeMode then .writeq else .readq)
    simp only [Option.bind_eq_bind, Option.bind_some, hsecond]
    exact ⟨_, rfl⟩

/-! ## The request that has been chosen -/

/-- What the requests in the queues and those pending have in common after the issue of a command. -/
structure IssueCase.Queues (spec : Spec) (c : Controller) (name : QueueName) (req : Request)
    (cmd : Command) (c' : Controller) : Prop where
  queue : ∀ name', ∀ r ∈ c'.queue name', r ∈ c.queue name' ∨
    r = begun req ∧ (name' = name ∨ name' = .actq ∧ spec.isOpening cmd = true)
  pending : ∀ r ∈ c'.pending, r ∈ c.pending ∨
    req.type = .READ ∧ r = { begun req with depart := c.clk + spec.readLatency }
  otherq : c'.otherq.length ≤ c.otherq.length

theorem IssueCase.queues {c₀ : Controller} {itr : ReqIter} {writes : List Request}
    (h : IssueCase spec c c₀ name itr cmd c' writes) (hqueue : ∀ name', c₀.queue name' = c.queue name')
    (hpending : c₀.pending = c.pending) : IssueCase.Queues spec c name itr.2 cmd c' := by
  have herase : ∀ r ∈ (c.queue name).eraseIdx itr.1, r ∈ c.queue name ∨ r = begun itr.2 :=
    fun _ hr => .inl (List.mem_of_mem_eraseIdx hr)
  have hkept : ∀ {q : List Request}, (∀ r ∈ q, r ∈ c.queue name ∨ r = begun itr.2) →
      ∀ name', ∀ r ∈ (c₀.withQueue name q).queue name', r ∈ c.queue name' ∨
        r = begun itr.2 ∧ (name' = name ∨ name' = .actq ∧ spec.isOpening cmd = true) := by
    intro q hq name' r hr
    by_cases hname : name' = name
    · subst hname
      rw [queue_withQueue] at hr
      exact (hq r hr).imp_right fun heq => ⟨heq, .inl rfl⟩
    · rw [queue_withQueue_of_ne hname, hqueue] at hr
      exact .inl hr
  have hlength : ∀ {q : List Request}, q.length ≤ (c.queue name).length →
      (c₀.withQueue name q).otherq.length ≤ c.otherq.length := by
    intro q hq
    cases name with
    | otherq => exact hq
    | readq => exact le_of_eq (congrArg _ (hqueue .otherq))
    | writeq => exact le_of_eq (congrArg _ (hqueue .otherq))
    | actq => exact le_of_eq (congrArg _ (hqueue .otherq))
  have heraseLength := List.length_eraseIdx_le (c.queue name) itr.1
  cases h with
  | kept ne opening =>
    refine ⟨hkept fun r hr => List.mem_or_eq_of_mem_set hr, fun r hr => ?_,
      hlength (le_of_eq List.length_set)⟩
    rw [withQueue_pending, hpending] at hr
    exact .inl hr
  | promoted ne opening other =>
    refine ⟨fun name' r hr => ?_, fun r hr => ?_, ?_⟩
    · by_cases hname : name' = name
      · subst hname
        rw [queue_withQueue] at hr
        exact .inl (List.mem_of_mem_eraseIdx hr)
      · rw [queue_withQueue_of_ne hname] at hr
        cases name' with
        | actq =>
          rcases List.mem_append.mp hr with hr | hr
          · exact .inl hr
          · exact .inr ⟨List.mem_singleton.mp hr, .inr ⟨rfl, opening⟩⟩
        | readq => exact .inl (hqueue .readq ▸ hr)
        | writeq => exact .inl (hqueue .writeq ▸ hr)
        | otherq => exact .inl (hqueue .otherq ▸ hr)
    · rw [withQueue_pending] at hr
      exact .inl (hpending ▸ hr)
    · refine le_trans (le_of_eq ?_) (hlength heraseLength)
      cases name <;> rfl
  | rotated ne opening act =>
    subst act
    refine ⟨fun name' r hr => ?_, fun r hr => .inl (hpending ▸ hr),
      le_of_eq (congrArg _ (hqueue .otherq))⟩
    cases name' with
    | actq =>
      rcases List.mem_append.mp hr with hr | hr
      · exact .inl (List.mem_of_mem_eraseIdx hr)
      · exact .inr ⟨List.mem_singleton.mp hr, .inl rfl⟩
    | readq => exact .inl (hqueue .readq ▸ hr)
    | writeq => exact .inl (hqueue .writeq ▸ hr)
    | otherq => exact .inl (hqueue .otherq ▸ hr)
  | read eq type =>
    refine ⟨fun name' r hr => hkept herase name' r (by cases name <;> cases name' <;> exact hr),
      fun r hr => ?_, ?_⟩
    · rw [withQueue_pending] at hr
      rcases List.mem_append.mp hr with hr | hr
      · exact .inl hr
      · exact .inr ⟨type, List.mem_singleton.mp hr⟩
    · refine le_trans (le_of_eq ?_) (hlength heraseLength)
      cases name <;> rfl
  | written eq type serving =>
    refine ⟨fun name' r hr => hkept herase name' r (by cases name <;> cases name' <;> exact hr),
      fun r hr => ?_, ?_⟩
    · rw [withQueue_pending] at hr
      exact .inl (hpending ▸ hr)
    · refine le_trans (le_of_eq ?_) (hlength heraseLength)
      cases name <;> rfl
  | other eq type =>
    refine ⟨hkept herase, fun r hr => ?_, hlength heraseLength⟩
    rw [withQueue_pending, hpending] at hr
    exact .inl hr

/-- The address of a request that is served. -/
def held (name : QueueName) (req : Request) : List AddrVec :=
  if name = .otherq then [] else [req.addrVec]

/-- What is served but for one request. -/
theorem serving_split {itr : ReqIter} (hitr : (c.queue name)[itr.1]? = some itr.2) :
    c.serving.Perm ((if itr.2.isFirstCommand then [] else held name itr.2) ++
      (c.withQueue name ((c.queue name).eraseIdx itr.1)).serving) := by
  by_cases hname : name = .otherq
  · subst hname
    unfold held
    rw [if_pos rfl, ite_self]
    exact List.Perm.refl _
  · obtain ⟨hlt, hget⟩ := List.getElem?_eq_some_iff.mp hitr
    have hsplit := begunAddrs_perm (List.getElem_cons_eraseIdx_perm hlt)
    rw [hget, begunAddrs_cons] at hsplit
    have hall := serving_withQueue (c := c) hname (c.queue name) ((c.queue name).eraseIdx itr.1) []
      (if itr.2.isFirstCommand then [] else [itr.2.addrVec]) (by simpa using hsplit.symm)
    unfold held
    rw [if_neg hname]
    simpa using hall

/-- What is served after the command: the request too, as long as it is not done. -/
theorem IssueCase.serving {c₀ : Controller} {itr : ReqIter} {writes : List Request}
    (h : IssueCase spec c c₀ name itr cmd c' writes) (hitr : (c.queue name)[itr.1]? = some itr.2)
    (hqueue : ∀ name', c₀.queue name' = c.queue name') (hpending : c₀.pending = c.pending)
    (hname : itr.2.type = .READ ∨ itr.2.type = .WRITE ↔ name ≠ .otherq)
    (hopening : spec.isOpening cmd = true → name ≠ .otherq) :
    c'.serving.Perm ((if writes = [] then held name itr.2 else []) ++
      (c.withQueue name ((c.queue name).eraseIdx itr.1)).serving) := by
  obtain ⟨hlt, hget⟩ := List.getElem?_eq_some_iff.mp hitr
  have hreadq : c₀.readq = c.readq := hqueue .readq
  have hwriteq : c₀.writeq = c.writeq := hqueue .writeq
  have hactq : c₀.actq = c.actq := hqueue .actq
  have hsame : ∀ q, (c₀.withQueue name q).serving = (c.withQueue name q).serving := by
    intro q
    unfold Controller.serving
    cases name <;> simp only [withQueue, hreadq, hwriteq, hactq, hpending]
  have hbegun : begunAddrs [begun itr.2] = [itr.2.addrVec] := rfl
  cases h with
  | kept ne opening =>
    rw [hsame, if_pos rfl]
    by_cases hother : name = .otherq
    · subst hother
      exact List.Perm.refl _
    · have hset := begunAddrs_perm (List.set_perm_cons_eraseIdx hlt (begun itr.2))
      rw [begunAddrs_cons] at hset
      have hall := serving_withQueue (c := c) hother ((c.queue name).set itr.1 (begun itr.2))
        ((c.queue name).eraseIdx itr.1) [] [itr.2.addrVec] (by simpa [begun] using hset)
      unfold held
      rw [if_neg hother]
      simpa using hall
  | promoted ne opening other =>
    unfold held
    rw [if_pos rfl, if_neg (hopening opening)]
    refine List.perm_iff_count.mpr fun a => ?_
    cases name with
    | otherq => exact absurd rfl (hopening opening)
    | actq => exact absurd rfl other
    | readq =>
      simp only [Controller.serving, withQueue, begunAddrs_append, hbegun, hwriteq, hpending,
        List.count_append]
      omega
    | writeq =>
      simp only [Controller.serving, withQueue, begunAddrs_append, hbegun, hreadq, hpending,
        List.count_append]
      omega
  | rotated ne opening act =>
    subst act
    unfold held
    rw [if_pos rfl, if_neg (hopening opening)]
    refine List.perm_iff_count.mpr fun a => ?_
    simp only [Controller.serving, withQueue, queue, begunAddrs_append, hbegun, hreadq, hwriteq,
      hpending, List.count_append]
    omega
  | read eq type =>
    have hother := hname.mp (.inl type)
    unfold held
    rw [if_pos rfl, if_neg hother]
    have hpush : ((({ c₀ with pending := c.pending ++
        [{ begun itr.2 with depart := c.clk + spec.readLatency }] } : Controller).withQueue name
        ((c.queue name).eraseIdx itr.1)).serving) =
        (c.withQueue name ((c.queue name).eraseIdx itr.1)).serving ++ [itr.2.addrVec] := by
      unfold Controller.serving
      cases name <;>
        simp only [withQueue, hreadq, hwriteq, hactq, List.map_append, ← List.append_assoc] <;> rfl
    rw [hpush]
    exact List.perm_append_comm
  | written eq type serving =>
    rw [if_neg (List.cons_ne_nil _ _), List.nil_append, ← hsame]
    refine List.Perm.of_eq ?_
    unfold Controller.serving
    cases name <;> rfl
  | other eq type =>
    rw [hsame, if_pos rfl]
    have hother : name = .otherq := by
      by_contra hne
      rcases hname.mpr hne with htype | htype
      · exact type.1 htype
      · exact type.2.1 htype
    unfold held
    rw [if_pos hother]
    exact List.Perm.refl _

/-! ## The issue of a command -/

theorem Kind.access_iff (h : Kind spec id name r) :
    r.type = .READ ∨ r.type = .WRITE ↔ name ≠ .otherq := by
  cases name with
  | readq => exact iff_of_true (.inl h.1) (by decide)
  | writeq => exact iff_of_true (.inr h.1) (by decide)
  | actq => exact iff_of_true h.1 (by decide)
  | otherq => exact iff_of_false (by rw [h.1]; decide) (not_not.mpr rfl)

theorem Kind.addressed (h : Kind spec id name r) (hname : name ≠ .otherq) :
    Addressed spec id r.addrVec := by
  cases name with
  | readq => exact h.2
  | writeq => exact h.2
  | actq => exact h.2.1
  | otherq => exact absurd rfl hname

theorem Begins.unique {ch ch' : DRAM} (h : Begins c r ch) (h' : Begins c r ch') : ch = ch' := by
  unfold Begins at h h'
  split at h
  · rename_i hfirst
    rw [if_pos hfirst, h] at h'
    exact Option.some.inj h'
  · rename_i hfirst
    rw [if_neg hfirst] at h'
    rw [h, h']

/-- The channel is told of the first command of a request. -/
theorem Inv.begins (h : Inv spec id log c) {itr : ReqIter}
    (hitr : (c.queue name)[itr.1]? = some itr.2) :
    ∃ ch, Begins c itr.2 ch ∧ ch.Lift (fun n m => n.SameTimes m ∧ n.SameRows m) c.channel ∧
      ch.Serves (held name itr.2 ++ (c.withQueue name ((c.queue name).eraseIdx itr.1)).serving)
        [(id : Int)] := by
  have hkind := h.kinds name _ (List.mem_of_getElem? hitr)
  have hsplit := serving_split hitr
  unfold Begins
  by_cases hfirst : itr.2.isFirstCommand = true ∧ (itr.2.type = .READ ∨ itr.2.type = .WRITE)
  · have hname := hkind.access_iff.mp hfirst.2
    have haddr := (hkind.addressed hname).inChannel
    obtain ⟨ch, hch, hserves⟩ := h.serves.start c.clk haddr (h.agree haddr.channel)
    refine ⟨ch, by rw [if_pos hfirst]; exact hch, DRAM.updateServingRequests_frame hch,
      hserves.perm ?_⟩
    rw [if_pos hfirst.1, List.nil_append] at hsplit
    unfold held
    rw [if_neg hname]
    exact hsplit.symm.cons _
  · have hheld : (if itr.2.isFirstCommand = true then [] else held name itr.2) = held name itr.2 := by
      by_cases hbegun : itr.2.isFirstCommand = true
      · have hother : name = .otherq := by
          by_contra hne
          exact hfirst ⟨hbegun, hkind.access_iff.mpr hne⟩
        unfold held
        rw [if_pos hbegun, if_pos hother]
      · exact if_neg hbegun
    rw [hheld] at hsplit
    exact ⟨c.channel, by rw [if_neg hfirst], .refl (fun n => ⟨.refl n, .refl n⟩) _,
      h.serves.perm hsplit.symm⟩

theorem updateServingRequests_eq {delta : Int} {d : DRAM}
    (h : c.channel.updateServingRequests addr delta c.clk = some d) :
    c.updateServingRequests addr delta = some { c with channel := d } := by
  unfold updateServingRequests
  rw [h]
  rfl

theorem countRow_exists (hhit : ∃ hit, c.isRowHit spec r = some hit)
    (hopen : ∃ conflict, c.isRowOpen spec r = some conflict) : ∃ c', c.countRow spec r = some c' := by
  obtain ⟨hit, hhit⟩ := hhit
  obtain ⟨conflict, hopen⟩ := hopen
  unfold countRow
  rw [hhit, hopen]
  cases hit <;> cases conflict <;> exact ⟨_, rfl⟩

theorem Inv.firstCommand (hstd : Standard spec) (h : Inv spec id log c) {itr : ReqIter}
    (hitr : (c.queue name)[itr.1]? = some itr.2) : ∃ c₁, c.firstCommand spec name itr = some c₁ := by
  have hkind := h.kinds name _ (List.mem_of_getElem? hitr)
  obtain ⟨ch, hbegins, hframe, -⟩ := h.begins hitr
  unfold Begins at hbegins
  unfold Controller.firstCommand
  by_cases hfirst : itr.2.isFirstCommand = true
  · rw [if_pos hfirst]
    by_cases htype : itr.2.type = .READ ∨ itr.2.type = .WRITE
    · rw [if_pos ⟨hfirst, htype⟩] at hbegins
      have hserving : (c.withQueue name ((c.queue name).set itr.1
          { itr.2 with isFirstCommand := false })).updateServingRequests itr.2.addrVec 1 =
          some { c.withQueue name ((c.queue name).set itr.1
            { itr.2 with isFirstCommand := false }) with channel := ch } :=
        updateServingRequests_eq (by rw [withQueue_channel, withQueue_clk]; exact hbegins)
      simp only [if_pos htype, hserving, Option.bind_eq_bind, Option.bind_some]
      obtain ⟨hhit, hopen⟩ := hkind.isRow (c := { c.withQueue name ((c.queue name).set itr.1
        { itr.2 with isFirstCommand := false }) with channel := ch }) hstd
        (h.stands.lift (hframe.mono fun _ _ => And.right))
      exact countRow_exists hhit hopen
    · simp only [if_neg htype]
      exact ⟨_, rfl⟩
  · rw [if_neg hfirst]
    exact ⟨_, rfl⟩

/-- Only a refresh asks for one. -/
theorem Kind.refresh (h : Kind spec id name r) (hstd : Standard spec)
    (hcmd : cmd = spec.translate r.type ∨
      (name ≠ .otherq ∧ (cmd = .ACT ∨ cmd = .PRE ∨ cmd = .PDX)) ∨ name = .otherq ∧ cmd = .PREA)
    (href : cmd = .REF) : spec.translate .REFRESH = .REF := by
  rcases hcmd with hsame | ⟨-, hcmd | hcmd | hcmd⟩ | ⟨-, hcmd⟩
  · by_cases hname : name = .otherq
    · subst hname
      rw [h.1] at hsame
      exact hsame.symm.trans href
    · rcases h.access_iff.mpr hname with htype | htype
      · rw [htype, hstd.read, href] at hsame
        cases hsame
      · rw [htype, hstd.write, href] at hsame
        cases hsame
  all_goals
    exact absurd (hcmd.symm.trans href) (by decide)

/-- What a chosen request issues. -/
structure Issued (spec : Spec) (id : Nat) (log : List Issue) (e : Issue) : Prop where
  fits : Fits spec id log e.cmd e.addr
  allowed : Allowed spec log e.cmd e.addr e.clk
  refresh : e.cmd = .REF → spec.translate .REFRESH = .REF

theorem Inv.issued (hstd : Standard spec) (h : Inv spec id log c) {itr : ReqIter}
    (hitr : (c.queue name)[itr.1]? = some itr.2) (hfirst : c.getFirstCmd spec itr.2 = some cmd)
    (hready : c.isReadyCmd spec cmd itr.2.addrVec = true) :
    Issued spec id log ⟨cmd, itr.2.addrVec, c.clk⟩ := by
  have hkind := h.kinds name _ (List.mem_of_getElem? hitr)
  obtain ⟨first, hfirst', hfits, hcmds⟩ := h.getFirstCmd hstd hkind
  rw [hfirst] at hfirst'
  obtain rfl := Option.some.inj hfirst'
  refine ⟨hfits, ?_, hkind.refresh hstd hcmds⟩
  have hcheck := (h.tracks.check_iff (h.agree hfits.rankAddr.channel) (by
    rw [h.level]
    exact ⟨Nat.zero_le _, Nat.zero_le _, fun k hk hle => by simp [Level.toNat] at hle; omega⟩)).mp hready
  intro level hreach
  exact hcheck level (by rw [h.level]; exact Nat.zero_le _) hreach

/-- What holds of the channel once the command has been issued, whatever becomes of the request. -/
structure Changed (spec : Spec) (id : Nat) (log : List Issue) (served : List AddrVec) (d : DRAM) :
    Prop where
  level : d.node.level = .Channel
  tracks : d.Tracks spec log [(id : Int)]
  stands : d.Stands spec log [(id : Int)]
  serves : d.Serves served [(id : Int)]

theorem Inv.changed (hstd : Standard spec) (h : Inv spec id log c) {itr : ReqIter}
    (hitr : (c.queue name)[itr.1]? = some itr.2)
    (hissued : Issued spec id log ⟨cmd, itr.2.addrVec, c.clk⟩) {ch : DRAM} (hch : Begins c itr.2 ch) :
    Changed spec id (log ++ [⟨cmd, itr.2.addrVec, c.clk⟩])
      (held name itr.2 ++ (c.withQueue name ((c.queue name).eraseIdx itr.1)).serving)
      (ch.update spec cmd itr.2.addrVec c.clk) := by
  obtain ⟨ch', hch', hframe, hserves⟩ := h.begins hitr
  obtain rfl := hch'.unique hch
  have hlevel := hframe.node.1.level.trans h.level
  refine ⟨(DRAM.update_level ..).trans hlevel, ?_, ?_, hserves.update ..⟩
  · refine (h.tracks.congr (hframe.mono fun _ _ => And.left)).update
      (e := ⟨cmd, itr.2.addrVec, c.clk⟩) ?_
    rw [hlevel]
    exact fun k hk => absurd hk (Nat.not_lt_zero k)
  · exact (h.stands.lift (hframe.mono fun _ _ => And.right)).update
      (e := ⟨cmd, itr.2.addrVec, c.clk⟩) hstd hissued.fits hlevel

theorem Changed.stop {served : List AddrVec} {d : DRAM} (h : Changed spec id log (addr :: served) d)
    (hin : InChannel spec id addr) (clk : Nat) :
    ∃ d', d.updateServingRequests addr (-1) clk = some d' ∧ Changed spec id log served d' := by
  obtain ⟨d', hd', hserves⟩ := h.serves.stop clk hin (by
    rw [h.level]
    exact agree_channel hin.channel)
  have hframe := DRAM.updateServingRequests_frame hd'
  exact ⟨d', hd', hframe.node.1.level.trans h.level, h.tracks.congr (hframe.mono fun _ _ => And.left),
    h.stands.lift (hframe.mono fun _ _ => And.right), hserves⟩

/-- The issue of a command for a chosen request fails no assertion. -/
theorem Inv.issue_exists (hstd : Standard spec) (h : Inv spec id log c) {itr : ReqIter}
    (hitr : (c.queue name)[itr.1]? = some itr.2)
    (hissued : Issued spec id log ⟨cmd, itr.2.addrVec, c.clk⟩)
    (hready : c.isReadyCmd spec cmd itr.2.addrVec = true) :
    ∃ c' writes, c.issue spec name itr cmd = some (c', writes) := by
  have hkind := h.kinds name _ (List.mem_of_getElem? hitr)
  obtain ⟨c₁, h₁⟩ := h.firstCommand hstd hitr
  obtain ⟨ch, hits, misses, conflicts, hch, rfl⟩ := firstCommand_eq hitr h₁
  have hchanged := h.changed hstd hitr hissued hch
  obtain ⟨ch', hch', hframe, -⟩ := h.begins hitr
  obtain rfl := hch'.unique hch
  obtain ⟨table, htable, -⟩ := h.table.update hstd hissued.fits
  have h₂ : issueCmd spec { c.withQueue name ((c.queue name).set itr.1 (begun itr.2)) with
      channel := ch', rowHits := hits, rowMisses := misses, rowConflicts := conflicts } cmd
        itr.2.addrVec = some { c.withQueue name ((c.queue name).set itr.1 (begun itr.2)) with
      channel := ch'.update spec cmd itr.2.addrVec c.clk, rowtable := table,
      rowHits := hits, rowMisses := misses, rowConflicts := conflicts } := by
    have hcheck : ch'.check spec cmd itr.2.addrVec c.clk = true := by
      rw [DRAM.check_lift (hframe.mono fun _ _ => And.left)]
      exact hready
    unfold issueCmd isReadyCmd
    simp only [withQueue_clk, withQueue_rowtable]
    rw [if_pos hcheck, htable]
    rfl
  unfold Controller.issue
  simp only [h₁, Option.bind_eq_bind, Option.bind_some]
  rw [h₂]
  simp only [Option.bind_some]
  split
  · exact ⟨_, _, rfl⟩
  · unfold finish
    simp only
    by_cases hwrite : itr.2.type = .WRITE ∨ itr.2.type = .PIM_WRITE
    · have hname : name ≠ .otherq := by
        intro hother
        subst hother
        have htype := hkind.1
        rw [htype] at hwrite
        exact absurd hwrite (by decide)
      have hread : itr.2.type ≠ .READ := by
        rcases hwrite with hwrite | hwrite <;> rw [hwrite] <;> decide
      unfold held at hchanged
      rw [if_neg hname] at hchanged
      obtain ⟨d, hd, -⟩ := hchanged.stop (hkind.addressed hname).inChannel c.clk
      rw [if_neg hread, if_pos hwrite]
      rw [updateServingRequests_eq (d := d) (by rw [withQueue_clk]; exact hd)]
      exact ⟨_, _, rfl⟩
    · rw [if_neg hwrite]
      exact ⟨_, _, rfl⟩

/-- What the issue leaves as it is, or makes what the command makes of it. -/
theorem IssueCase.fields {c₀ : Controller} {itr : ReqIter} {writes : List Request}
    (h : IssueCase spec c c₀ name itr cmd c' writes) :
    c'.clk = c₀.clk ∧ c'.rowtable = c₀.rowtable ∧
      (writes = [] ∧ c'.channel = c₀.channel ∨
        writes ≠ [] ∧ (itr.2.type = .WRITE ∨ itr.2.type = .PIM_WRITE) ∧
          c₀.channel.updateServingRequests itr.2.addrVec (-1) c.clk = some c'.channel) := by
  cases h with
  | kept ne opening => exact ⟨withQueue_clk _, withQueue_rowtable _, .inl ⟨rfl, withQueue_channel _⟩⟩
  | promoted ne opening other =>
    exact ⟨withQueue_clk _, withQueue_rowtable _, .inl ⟨rfl, withQueue_channel _⟩⟩
  | rotated ne opening act => exact ⟨rfl, rfl, .inl ⟨rfl, rfl⟩⟩
  | read eq type => exact ⟨withQueue_clk _, withQueue_rowtable _, .inl ⟨rfl, withQueue_channel _⟩⟩
  | written eq type serving =>
    refine ⟨withQueue_clk _, withQueue_rowtable _, .inr ⟨List.cons_ne_nil _ _, type, ?_⟩⟩
    rw [withQueue_channel]
    exact serving
  | other eq type => exact ⟨withQueue_clk _, withQueue_rowtable _, .inl ⟨rfl, withQueue_channel _⟩⟩

/-- Only a read or a write opens a row. -/
theorem Inv.opening (hstd : Standard spec) (h : Inv spec id log c) (hr : Kind spec id name r)
    (hfirst : c.getFirstCmd spec r = some cmd) : spec.isOpening cmd = true → name ≠ .otherq := by
  intro hopens hother
  subst hother
  obtain ⟨first, hfirst', -, hcmds⟩ := h.getFirstCmd hstd hr
  rw [hfirst] at hfirst'
  obtain rfl := Option.some.inj hfirst'
  rw [hstd.isOpening] at hopens
  rcases hcmds with hsame | ⟨hne, -⟩ | ⟨-, rfl⟩
  · rw [hsame, hr.1] at hopens
    rcases hstd.refresh with hrefresh | hrefresh <;> rw [hrefresh] at hopens <;> cases hopens
  · exact hne rfl
  · cases hopens

theorem Inv.issue (hstd : Standard spec) (h : Inv spec id log c) {itr : ReqIter}
    {writes : List Request} (hitr : (c.queue name)[itr.1]? = some itr.2)
    (hfirst : c.getFirstCmd spec itr.2 = some cmd)
    (hready : c.isReadyCmd spec cmd itr.2.addrVec = true)
    (hs : c.issue spec name itr cmd = some (c', writes)) :
    Inv spec id (log ++ [⟨cmd, itr.2.addrVec, c.clk⟩]) c' ∧ c'.clk = c.clk := by
  have hkind := h.kinds name _ (List.mem_of_getElem? hitr)
  have hissued := h.issued hstd hitr hfirst hready
  obtain ⟨c₀, ⟨ch, table, hits, misses, conflicts, hch, htable, rfl⟩, hcase⟩ := issue_cases hitr hs
  have hchanged := h.changed hstd hitr hissued hch
  have hopening := h.opening hstd hkind hfirst
  have hqueues := hcase.queues (fun name' => by cases name' <;> rfl) rfl
  have hserving := hcase.serving hitr (fun name' => by cases name' <;> rfl) rfl hkind.access_iff hopening
  obtain ⟨hclk, htable', hchannel⟩ := hcase.fields
  have hafter : Changed spec id (log ++ [⟨cmd, itr.2.addrVec, c.clk⟩]) c'.serving c'.channel := by
    rcases hchannel with ⟨hnil, hsame⟩ | ⟨hne, htype, hstop⟩
    · rw [hsame]
      rw [if_pos hnil] at hserving
      exact { hchanged with serves := hchanged.serves.perm hserving }
    · have hname : name ≠ .otherq := by
        intro hother
        subst hother
        have hrefresh := hkind.1
        rw [hrefresh] at htype
        exact absurd htype (by decide)
      rw [if_neg hne] at hserving
      unfold held at hchanged
      rw [if_neg hname] at hchanged
      obtain ⟨d, hd, hd'⟩ := hchanged.stop (hkind.addressed hname).inChannel c.clk
      obtain rfl := Option.some.inj (hd.symm.trans hstop)
      exact { hd' with serves := hd'.serves.perm hserving }
  obtain ⟨table', htable'', hholds⟩ := h.table.update hstd hissued.fits
  obtain rfl := Option.some.inj (htable.symm.trans htable'')
  refine ⟨{
    level := hafter.level
    tracks := hafter.tracks
    stands := hafter.stands
    serves := hafter.serves
    table := by rw [htable']; exact hholds
    kinds := fun name' r hr => ?_
    arrive := fun name' r hr => ?_
    pending := fun r hr => ?_
    room := hqueues.otherq.trans h.room }, hclk⟩
  · rcases hqueues.queue name' r hr with hr | ⟨rfl, rfl | ⟨rfl, hopens⟩⟩
    · exact h.kinds name' r hr
    · cases name' with
      | readq => exact hkind
      | writeq => exact hkind
      | actq => exact ⟨hkind.1, hkind.2.1, rfl⟩
      | otherq => exact hkind
    · have hname := hopening hopens
      exact ⟨hkind.access_iff.mpr hname, hkind.addressed hname, rfl⟩
  · rw [hclk]
    rcases hqueues.queue name' r hr with hr | ⟨rfl, -⟩
    · exact h.arrive name' r hr
    · exact h.arrive name itr.2 (List.mem_of_getElem? hitr)
  · rcases hqueues.pending r hr with hr | ⟨htype, rfl⟩
    · exact h.pending r hr
    · have harrive := h.arrive name _ (List.mem_of_getElem? hitr)
      have hlatency := hstd.readLatency
      refine ⟨htype, hkind.addressed (hkind.access_iff.mp (.inl htype)), ?_⟩
      change 1 < c.clk + spec.readLatency - itr.2.arrive
      omega

/-! ## All of `tick` -/

/-- The commands issued after a call. -/
def logged (log : List Issue) (clk : Nat) (out : Outcome) : List Issue :=
  log ++ (out.issue.map fun i => ⟨i.1, i.2, clk⟩).toList

/-- A call of `tick` fails exactly where the refreshes that are due do not fit into their queue. -/
theorem Inv.tick_isSome (hstd : Standard spec) (h : Inv spec id log c) :
    (c.tick spec).isSome ↔ ¬ Crowded spec c := by
  obtain ⟨c₁, reads, h₁, hinv₁, -⟩ := h.advance.serve
  have hcrowded : Crowded spec c₁ ↔ Crowded spec c := by
    rcases serve_cases h₁ with ⟨rfl, -⟩ | ⟨r, rest, ch, -, -, -, -, rfl, -⟩
    · exact Iff.rfl
    · exact Iff.rfl
  rw [← hcrowded, ← hinv₁.tickRef_isSome]
  unfold Controller.tick
  simp only [h₁, Option.bind_eq_bind, Option.bind_some]
  cases h₂ : c₁.tickRef spec with
  | none => exact iff_of_false Bool.false_ne_true Bool.false_ne_true
  | some c₂ =>
    have hinv₂ := (hinv₁.tickRef h₂).1.schedule.1
    obtain ⟨choice, hchoice⟩ := hinv₂.choose hstd
    refine iff_of_true ?_ rfl
    simp only [Option.bind_some, hchoice]
    cases choice with
    | none => rfl
    | some choice =>
      obtain ⟨name, itr, cmd⟩ := choice
      obtain ⟨hitr, hfirst, hready⟩ := choose_eq hchoice
      obtain ⟨c₃, writes, h₃⟩ := hinv₂.issue_exists hstd hitr (hinv₂.issued hstd hitr hfirst hready) hready
      simp only [h₃, Option.bind_some]
      rfl

theorem Inv.tick (hstd : Standard spec) (h : Inv spec id log c) {out : Outcome}
    (hs : c.tick spec = some (c', out)) :
    Inv spec id (logged log (c.clk + 1) out) c' ∧ c'.clk = c.clk + 1 ∧
      ∀ i ∈ out.issue, Issued spec id log ⟨i.1, i.2, c.clk + 1⟩ := by
  obtain ⟨c₁, reads, c₂, h₁, h₂, hrest⟩ := tick_cases hs
  obtain ⟨c₁', reads', h₁', hinv₁, hclk₁⟩ := h.advance.serve
  obtain ⟨rfl, rfl⟩ := Prod.mk.inj (Option.some.inj (h₁.symm.trans h₁'))
  obtain ⟨hinv₂, hclk₂⟩ := hinv₁.tickRef h₂
  obtain ⟨hinv₃, hclk₃⟩ := hinv₂.schedule
  have hclk : c₂.schedule.clk = c.clk + 1 := hclk₃.trans (hclk₂.trans hclk₁)
  rcases hrest with ⟨-, rfl, rfl⟩ | ⟨name, itr, cmd, writes, hchoice, hissue, rfl⟩
  · unfold logged
    exact ⟨by simpa using hinv₃, hclk, fun i hi => by cases hi⟩
  · obtain ⟨hitr, hfirst, hready⟩ := choose_eq hchoice
    have hissued := hinv₃.issued hstd hitr hfirst hready
    obtain ⟨hinv, hclk'⟩ := hinv₃.issue hstd hitr hfirst hready hissue
    rw [hclk] at hinv hissued
    refine ⟨hinv, hclk'.trans hclk, fun i hi => ?_⟩
    obtain rfl := Option.some.inj hi
    exact hissued

end Controller

end OnnxSim.Ram
