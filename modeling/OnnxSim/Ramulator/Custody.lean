import OnnxSim.Ramulator.Reads

/-!
# Requests that come and go

A read or a write that a controller has accepted is in one of its queues or pending, or has been called
back, and it is so once (`Controller.requests_conserved`): neither the promotion of a request to `actq`
nor the rotation of `actq` loses or repeats one.
-/

namespace OnnxSim.Ram

variable {spec : Spec} {id : Nat} {log : List Issue}

namespace Controller

variable {scheduler : SchedulerType} {c c' : Controller} {name : QueueName} {cmd : Command}
  {h : List (Controller × Act)}

/-- What a request is from its arrival to its call back. -/
structure Key where
  type : RequestType
  addr : AddrType
  addrVec : AddrVec
  coreid : Nat
  original : Option MemoryAccess
  deriving DecidableEq

def key (r : Request) : Key := ⟨r.type, r.addr, r.addrVec, r.coreid, r.original⟩

/-- The reads and writes that the controller holds. -/
def outstanding (c : Controller) : List Key := (c.readq ++ c.writeq ++ c.actq ++ c.pending).map key

theorem IssueCase.outstanding {c₀ : Controller} {itr : ReqIter} {writes : List Request}
    (h : IssueCase spec c c₀ name itr cmd c' writes) (hitr : (c.queue name)[itr.1]? = some itr.2)
    (hqueue : ∀ name', c₀.queue name' = c.queue name') (hpending : c₀.pending = c.pending)
    (hname : itr.2.type = .READ ∨ itr.2.type = .WRITE ↔ name ≠ .otherq)
    (htype : itr.2.type ≠ .PIM_WRITE) (hopening : spec.isOpening cmd = true → name ≠ .otherq) :
    c.outstanding.Perm (writes.map key ++ c'.outstanding) := by
  obtain ⟨hlt, hget⟩ := List.getElem?_eq_some_iff.mp hitr
  have hreadq : c₀.readq = c.readq := hqueue .readq
  have hwriteq : c₀.writeq = c.writeq := hqueue .writeq
  have hactq : c₀.actq = c.actq := hqueue .actq
  have hsplit := (List.getElem_cons_eraseIdx_perm hlt).map key
  have hset := (List.set_perm_cons_eraseIdx hlt (begun itr.2)).map key
  rw [hget] at hsplit
  refine List.perm_iff_count.mpr fun a => ?_
  -- the request counts as much where it was as where it goes
  have hold := List.perm_iff_count.mp hsplit a
  have hnew := List.perm_iff_count.mp hset a
  have hbegun : key (begun itr.2) = key itr.2 := rfl
  have hdone : ∀ depart, key { begun itr.2 with depart := depart } = key itr.2 := fun _ => rfl
  rw [List.map_cons, hbegun, List.count_cons] at hnew
  rw [List.map_cons, List.count_cons] at hold
  cases h with
  | kept ne opening =>
    cases name <;> simp only [queue] at hold hnew <;>
      simp only [Controller.outstanding, withQueue, queue, hreadq, hwriteq, hactq, hpending,
        List.map_append, List.map_nil, List.nil_append, List.count_append] <;> omega
  | promoted ne opening other =>
    have hopen := hopening opening
    cases name with
    | otherq => exact absurd rfl hopen
    | actq => exact absurd rfl other
    | readq =>
      simp only [queue] at hold hnew
      simp only [Controller.outstanding, withQueue, queue, hwriteq, hpending, List.map_append,
        List.map_cons, List.map_nil, List.nil_append, List.count_append, List.count_cons,
        List.count_nil, hbegun]
      omega
    | writeq =>
      simp only [queue] at hold hnew
      simp only [Controller.outstanding, withQueue, queue, hreadq, hpending, List.map_append,
        List.map_cons, List.map_nil, List.nil_append, List.count_append, List.count_cons,
        List.count_nil, hbegun]
      omega
  | rotated ne opening act =>
    subst act
    simp only [queue] at hold hnew
    simp only [Controller.outstanding, hreadq, hwriteq, hpending, List.map_append,
      List.map_cons, List.map_nil, List.nil_append, List.count_append, List.count_cons,
      List.count_nil, hbegun]
    omega
  | read eq type =>
    have hother := hname.mp (.inl type)
    cases name <;> simp only [queue] at hold hnew <;>
      simp only [Controller.outstanding, withQueue, queue, hreadq, hwriteq, hactq, hdone,
        List.map_append, List.map_cons, List.map_nil, List.nil_append, List.count_append,
        List.count_cons, List.count_nil] <;>
      first | omega | exact absurd rfl hother
  | written eq type serving =>
    have hother := hname.mp (.inr (type.resolve_right htype))
    cases name <;> simp only [queue] at hold hnew <;>
      simp only [Controller.outstanding, withQueue, queue, hreadq, hwriteq, hactq, hpending, hbegun,
        List.map_append, List.map_cons, List.map_nil, List.count_append, List.count_cons,
        List.count_nil] <;>
      first | omega | exact absurd rfl hother
  | other eq type =>
    have hother : name = .otherq := by
      by_contra hne
      rcases hname.mpr hne with htype | htype
      · exact type.1 htype
      · exact type.2.1 htype
    subst hother
    simp only [Controller.outstanding, withQueue, hreadq, hwriteq, hactq, hpending, List.map_nil,
      List.nil_append]

theorem Kind.not_pim {r : Request} (h : Kind spec id name r) : r.type ≠ .PIM_WRITE := by
  cases name with
  | readq =>
    rw [h.1]
    decide
  | writeq =>
    rw [h.1]
    decide
  | actq => rcases h.1 with htype | htype <;> rw [htype] <;> decide
  | otherq =>
    rw [h.1]
    decide

/-- What is enqueued is outstanding. -/
theorem enqueue_outstanding {req : Request} (hin : Incoming spec id req)
    (hs : c.enqueue req = some c') : (key req :: c.outstanding).Perm c'.outstanding := by
  obtain ⟨-, rfl⟩ := enqueue_eq hs
  have hkey : key { req with arrive := c.clk } = key req := rfl
  have hqueue : getQueue req.type = .readq ∨ getQueue req.type = .writeq := by
    rcases hin.type with htype | htype
    · exact .inl (by rw [htype]; rfl)
    · exact .inr (by rw [htype]; rfl)
  refine List.perm_iff_count.mpr fun a => ?_
  rcases hqueue with hqueue | hqueue <;>
    simp only [hqueue, outstanding, withQueue, queue, List.map_append, List.map_cons, List.map_nil,
      List.count_append, List.count_cons, List.count_nil, hkey] <;> omega

theorem Inv.issue_outstanding (hstd : Standard spec) (h : Inv spec id log c) {itr : ReqIter}
    {writes : List Request} (hitr : (c.queue name)[itr.1]? = some itr.2)
    (hfirst : c.getFirstCmd spec itr.2 = some cmd)
    (hs : c.issue spec name itr cmd = some (c', writes)) :
    c.outstanding.Perm (writes.map key ++ c'.outstanding) := by
  have hkind := h.kinds name _ (List.mem_of_getElem? hitr)
  obtain ⟨c₀, ⟨ch, table, hits, misses, conflicts, -, -, rfl⟩, hcase⟩ := issue_cases hitr hs
  exact hcase.outstanding hitr (fun name' => by cases name' <;> rfl) rfl hkind.access_iff hkind.not_pim
    (h.opening hstd hkind hfirst)

theorem Inv.tick_outstanding (hstd : Standard spec) (h : Inv spec id log c) {out : Outcome}
    (hs : c.tick spec = some (c', out)) :
    c.outstanding.Perm (out.served.map key ++ c'.outstanding) := by
  obtain ⟨c₁, reads, c₂, h₁, h₂, hrest⟩ := tick_cases hs
  obtain ⟨c₁', reads', h₁', hinv₁, -⟩ := h.advance.serve
  obtain ⟨rfl, rfl⟩ := Prod.mk.inj (Option.some.inj (h₁.symm.trans h₁'))
  have hinv₃ := (hinv₁.tickRef h₂).1.schedule.1
  have hsame : c₂.schedule.outstanding = c₁.outstanding := by
    obtain ⟨mode, hmode⟩ := schedule_eq c₂
    rw [hmode]
    obtain ⟨refresh, ⟨-, rfl⟩ | ⟨-, rfl⟩⟩ := tickRef_cases h₂ <;> rfl
  have hserve : c.outstanding.Perm (reads.map key ++ c₁.outstanding) := by
    rcases serve_cases h₁ with ⟨rfl, rfl, -⟩ | ⟨r, rest, ch, hpending, -, -, rfl, rfl, -⟩
    · exact List.Perm.refl _
    · have hcons : c.pending = r :: rest := hpending
      change ((c.readq ++ c.writeq ++ c.actq ++ c.pending).map key).Perm
        ((r :: (c.readq ++ c.writeq ++ c.actq ++ rest)).map key)
      rw [hcons]
      exact List.perm_middle.map key
  rcases hrest with ⟨-, rfl, rfl⟩ | ⟨name, itr, cmd, writes, hchoice, hissue, rfl⟩
  · rw [hsame]
    exact hserve
  · obtain ⟨hitr, hfirst, -⟩ := choose_eq hchoice
    have hissued := hinv₃.issue_outstanding hstd hitr hfirst hissue
    rw [hsame] at hissued
    change c.outstanding.Perm ((reads ++ writes).map key ++ c'.outstanding)
    rw [List.map_append, List.append_assoc]
    exact hserve.trans (hissued.append_left _)

/-- The requests that a call brings. -/
def arriving : Act → List Key
  | .enqueue req => [key req]
  | .tick _ => []

/-- The requests that a call calls back. -/
def leaving : Act → List Key
  | .enqueue _ => []
  | .tick out => out.served.map key

/-- In every run, what has been accepted is what has been called back and what is outstanding. -/
theorem requests_conserved (hstd : Standard spec) (run : Run spec scheduler id h c) :
    (h.flatMap fun p => arriving p.2).Perm ((h.flatMap fun p => leaving p.2) ++ c.outstanding) := by
  induction run with
  | nil => exact List.Perm.refl _
  | snoc run step ih =>
    rw [List.flatMap_append, List.flatMap_append, List.flatMap_singleton, List.flatMap_singleton]
    refine (ih.append_right _).trans ?_
    rw [List.append_assoc, List.append_assoc]
    refine List.Perm.append_left _ ?_
    cases step with
    | enqueue incoming eq =>
      exact (List.perm_append_singleton _ _).trans (enqueue_outstanding incoming eq)
    | tick eq =>
      rw [show arriving (.tick _) = [] from rfl, List.append_nil]
      exact (Run.traced hstd run).inv.tick_outstanding hstd eq

/-- Of five reads two have been called back after 21 calls. -/
theorem requests_conserved_spread : ∃ h c, Run HBM_1Gbps .FRFCFS 0 h c ∧
    (h.flatMap fun p => leaving p.2) = [key (readAt 0 0 5), key (readAt 1 0 5)] ∧
    (h.flatMap fun p => arriving p.2).Perm ((h.flatMap fun p => leaving p.2) ++ c.outstanding) := by
  have hrun : ((reading spread 21).foldlM (play HBM_1Gbps) ([], init HBM_1Gbps .FRFCFS 0)).map
      (fun p => p.1.flatMap fun p => leaving p.2) =
      some [key (readAt 0 0 5), key (readAt 1 0 5)] := by decide +kernel
  obtain ⟨⟨h, c⟩, hp, hback⟩ := Option.map_eq_some_iff.mp hrun
  have run : Run HBM_1Gbps .FRFCFS 0 h c :=
    Run.play (fun req hreq => spread_incoming req (mem_reading hreq)) hp
  exact ⟨h, c, run, hback, requests_conserved HBM_1Gbps.standard run⟩

end Controller

end OnnxSim.Ram
