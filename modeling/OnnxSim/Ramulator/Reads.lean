import OnnxSim.Ramulator.Trace

/-!
# When reads are called back

A read waits in `pending` from its `RD` on, and is called back `read_latency` cycles later, neither
earlier nor later, in the order of the commands (`Controller.reads_called_back`): one read is issued in a
cycle and one called back, so none has to wait for another.
-/

namespace OnnxSim.Ram

open Recent

variable {spec : Spec} {id : Nat} {log : List Issue}

namespace Controller

variable {scheduler : SchedulerType} {c c' : Controller} {name : QueueName} {cmd : Command}
  {h : List (Controller × Act)}

/-- When a pending read is called back, and where it reads. -/
def due (r : Request) : Nat × AddrVec := (r.depart, r.addrVec)

/-- Reads among requests that are called back. -/
def readsOf (l : List Request) : List Request := l.filter fun r => r.type = .READ

theorem Inv.issue_pending (hstd : Standard spec) (h : Inv spec id log c) {itr : ReqIter}
    {writes : List Request} (hitr : (c.queue name)[itr.1]? = some itr.2)
    (hfirst : c.getFirstCmd spec itr.2 = some cmd)
    (hs : c.issue spec name itr cmd = some (c', writes)) :
    readsOf writes = [] ∧ c'.pending.map due =
      c.pending.map due ++ if cmd = .RD then [(c.clk + spec.readLatency, itr.2.addrVec)] else [] := by
  have hkind := h.kinds name _ (List.mem_of_getElem? hitr)
  obtain ⟨first, hfirst', -, hcmds⟩ := h.getFirstCmd hstd hkind
  rw [hfirst] at hfirst'
  obtain rfl := Option.some.inj hfirst'
  obtain ⟨c₀, ⟨ch, table, hits, misses, conflicts, -, -, rfl⟩, hcase⟩ := issue_cases hitr hs
  -- a command that does not finish the request is no access
  have hother : cmd ≠ spec.translate itr.2.type → cmd ≠ .RD := by
    intro hne
    rcases hcmds with hsame | ⟨-, hcmd⟩ | ⟨-, hcmd⟩
    · exact absurd hsame hne
    · rcases hcmd with hcmd | hcmd | hcmd <;> rw [hcmd] <;> decide
    · rw [hcmd]
      decide
  cases hcase with
  | kept ne opening =>
    rw [if_neg (hother ne), List.append_nil, withQueue_pending]
    exact ⟨rfl, rfl⟩
  | promoted ne opening other =>
    rw [if_neg (hother ne), List.append_nil, withQueue_pending]
    exact ⟨rfl, rfl⟩
  | rotated ne opening act =>
    rw [if_neg (hother ne), List.append_nil]
    exact ⟨rfl, rfl⟩
  | read eq type =>
    rw [type, hstd.read] at eq
    rw [if_pos eq, withQueue_pending, List.map_append]
    exact ⟨rfl, rfl⟩
  | written eq type serving =>
    have hwrite : itr.2.type = .WRITE := by
      rcases type with type | type
      · exact type
      · cases name with
        | readq => exact absurd (hkind.1.symm.trans type) (by decide)
        | writeq => exact hkind.1
        | actq =>
          rcases hkind.1 with hread | hwrite
          · exact absurd (hread.symm.trans type) (by decide)
          · exact hwrite
        | otherq => exact absurd (hkind.1.symm.trans type) (by decide)
    rw [hwrite, hstd.write] at eq
    have hne : cmd ≠ .RD := by
      rw [eq]
      decide
    rw [if_neg hne, List.append_nil, withQueue_pending]
    refine ⟨?_, rfl⟩
    unfold readsOf
    rw [List.filter_singleton]
    have hbegun : (begun itr.2).type = .WRITE := hwrite
    rw [hbegun]
    rfl
  | other eq type =>
    have hrefresh : itr.2.type = .REFRESH := by
      cases name with
      | readq => exact absurd hkind.1 type.1
      | writeq => exact absurd hkind.1 type.2.1
      | actq =>
        rcases hkind.1 with hread | hwrite
        · exact absurd hread type.1
        · exact absurd hwrite type.2.1
      | otherq => exact hkind.1
    have hne : cmd ≠ .RD := by
      rw [eq, hrefresh]
      rcases hstd.refresh with h' | h' <;> rw [h'] <;> decide
    rw [if_neg hne, List.append_nil, withQueue_pending]
    exact ⟨rfl, rfl⟩

/-- What a call of `tick` does with the pending reads. -/
theorem Inv.tick_pending (hstd : Standard spec) (h : Inv spec id log c) {out : Outcome}
    (hs : c.tick spec = some (c', out)) :
    ∃ rest, c.pending = readsOf out.served ++ rest ∧
      (readsOf out.served = [] ∧ (∀ r ∈ rest.head?, c.clk + 1 < r.depart) ∨
        ∃ r, readsOf out.served = [r] ∧ r.depart ≤ c.clk + 1) ∧
      c'.pending.map due = rest.map due ++ (out.issue.toList.filter fun i => i.1 = .RD).map fun i =>
        (c.clk + 1 + spec.readLatency, i.2) := by
  obtain ⟨c₁, reads, c₂, h₁, h₂, hrest⟩ := tick_cases hs
  obtain ⟨c₁', reads', h₁', hinv₁, hclk₁⟩ := h.advance.serve
  obtain ⟨rfl, rfl⟩ := Prod.mk.inj (Option.some.inj (h₁.symm.trans h₁'))
  obtain ⟨hinv₂, hclk₂⟩ := hinv₁.tickRef h₂
  obtain ⟨hinv₃, hclk₃⟩ := hinv₂.schedule
  have hclk : c₂.schedule.clk = c.clk + 1 := hclk₃.trans (hclk₂.trans hclk₁)
  have hsame : c₂.schedule.pending = c₁.pending := by
    obtain ⟨mode, hmode⟩ := schedule_eq c₂
    rw [hmode]
    obtain ⟨refresh, ⟨-, rfl⟩ | ⟨-, rfl⟩⟩ := tickRef_cases h₂ <;> rfl
  -- the reads that are called back, and those left
  have hserve : c.pending = reads ++ c₁.pending ∧ readsOf reads = reads ∧
      (reads = [] ∧ (∀ r ∈ c₁.pending.head?, c.clk + 1 < r.depart) ∨
        ∃ r, reads = [r] ∧ r.depart ≤ c.clk + 1) := by
    rcases serve_cases h₁ with ⟨rfl, rfl, hhead⟩ | ⟨r, rest, ch, hpending, htype, hdepart, rfl, rfl, -⟩
    · exact ⟨rfl, rfl, .inl ⟨rfl, hhead⟩⟩
    · refine ⟨hpending, ?_, .inr ⟨r, rfl, hdepart⟩⟩
      unfold readsOf
      rw [List.filter_singleton, htype]
      rfl
  obtain ⟨hpending, hreads, hcases⟩ := hserve
  refine ⟨c₁.pending, ?_⟩
  rcases hrest with ⟨-, rfl, rfl⟩ | ⟨name, itr, cmd, writes, hchoice, hissue, rfl⟩
  · change c.pending = readsOf reads ++ c₁.pending ∧ _
    rw [hreads]
    refine ⟨hpending, hcases, ?_⟩
    rw [hsame]
    exact (List.append_nil _).symm
  · obtain ⟨hitr, hfirst, -⟩ := choose_eq hchoice
    obtain ⟨hwrites, hafter⟩ := hinv₃.issue_pending hstd hitr hfirst hissue
    have hserved : readsOf (reads ++ writes) = reads := by
      unfold readsOf at hreads hwrites ⊢
      rw [List.filter_append, hreads, hwrites, List.append_nil]
    change c.pending = readsOf (reads ++ writes) ++ c₁.pending ∧ _
    rw [hserved]
    refine ⟨hpending, hcases, ?_⟩
    rw [hafter, hsame, hclk]
    congr 1
    by_cases hcmd : cmd = .RD
    · rw [if_pos hcmd]
      simp [hcmd]
    · rw [if_neg hcmd]
      simp [hcmd]

/-! ## Whole runs -/

/-- The clock and the reads called back after one more call. -/
def recordReads (s : Nat × List (Nat × AddrVec)) : Act → Nat × List (Nat × AddrVec)
  | .enqueue _ => s
  | .tick out => (s.1 + 1, s.2 ++ (readsOf out.served).map fun r => (s.1 + 1, r.addrVec))

/-- The reads that a run has called back, with the time and the address of each. -/
def calledBack (h : List (Controller × Act)) : List (Nat × AddrVec) :=
  ((h.map Prod.snd).foldl recordReads (0, [])).2

/-- The reads of some commands, with the time when each is to be called back. -/
def answers (spec : Spec) (log : List Issue) : List (Nat × AddrVec) :=
  (log.filter fun e => e.cmd = .RD).map fun e => (e.clk + spec.readLatency, e.addr)

theorem answers_logged (spec : Spec) (log : List Issue) (clk : Nat) (out : Outcome) :
    answers spec (logged log clk out) = answers spec log ++
      (out.issue.toList.filter fun i => i.1 = .RD).map fun i => (clk + spec.readLatency, i.2) := by
  unfold answers logged
  rw [List.filter_append, List.map_append]
  congr 1
  cases out.issue with
  | none => rfl
  | some i =>
    rw [Option.map_some, Option.toList_some, Option.toList_some, List.filter_singleton,
      List.filter_singleton]
    by_cases hcmd : i.1 = .RD
    · simp [hcmd]
    · simp [hcmd]

/-- What has been called back and what is pending is what has been read. -/
structure Reads (spec : Spec) (clk : Nat) (log : List Issue) (reads : List (Nat × AddrVec))
    (c : Controller) : Prop where
  eq : reads ++ c.pending.map due = answers spec log
  past : ∀ p ∈ reads, p.1 ≤ clk
  ahead : ∀ r ∈ c.pending, clk < r.depart
  within : ∀ p ∈ c.pending.map due, p.1 ≤ clk + spec.readLatency
  sorted : (c.pending.map due).Pairwise fun a b => a.1 < b.1

theorem Reads.tick (hstd : Standard spec) {reads : List (Nat × AddrVec)} (hinv : Inv spec id log c)
    (h : Reads spec c.clk log reads c) {out : Outcome} (hs : c.tick spec = some (c', out)) :
    Reads spec (c.clk + 1) (logged log (c.clk + 1) out)
      (reads ++ (readsOf out.served).map fun r => (c.clk + 1, r.addrVec)) c' := by
  have hlatency := hstd.readLatency
  obtain ⟨rest, hpending, hcases, hafter⟩ := hinv.tick_pending hstd hs
  have hsorted := h.sorted
  rw [hpending, List.map_append] at hsorted
  obtain ⟨-, hrestSorted, hbetween⟩ := List.pairwise_append.mp hsorted
  -- the one that is called back is due now, and the others are due later
  have hnow : (readsOf out.served).map due =
      (readsOf out.served).map fun r => (c.clk + 1, r.addrVec) := by
    rcases hcases with ⟨hnil, -⟩ | ⟨r, hone, hdepart⟩
    · rw [hnil]
      rfl
    · have hahead := h.ahead r (by rw [hpending, hone]; exact List.mem_append_left _ (List.mem_singleton_self r))
      have heq : r.depart = c.clk + 1 := by omega
      rw [hone]
      change [(r.depart, r.addrVec)] = _
      rw [heq]
      rfl
  have hlater : ∀ p ∈ rest.map due, c.clk + 1 < p.1 := by
    intro p hp
    rcases hcases with ⟨hnil, hhead⟩ | ⟨r, hone, hdepart⟩
    · cases rest with
      | nil => cases hp
      | cons q rest =>
        have hq := hhead q rfl
        rcases List.mem_cons.mp hp with rfl | hp
        · exact hq
        · exact hq.trans ((List.pairwise_cons.mp hrestSorted).1 p hp)
    · have hahead := h.ahead r (by rw [hpending, hone]; exact List.mem_append_left _ (List.mem_singleton_self r))
      have hlt := hbetween (due r) (by rw [hone]; exact List.mem_singleton_self _) p hp
      change r.depart < p.1 at hlt
      omega
  have hwithin : ∀ p ∈ rest.map due, p.1 ≤ c.clk + spec.readLatency := by
    intro p hp
    refine h.within p ?_
    rw [hpending, List.map_append]
    exact List.mem_append_right _ hp
  -- the one that is read now
  have hnew : ∀ p ∈ (out.issue.toList.filter fun i => i.1 = .RD).map fun i =>
      (c.clk + 1 + spec.readLatency, i.2), p.1 = c.clk + 1 + spec.readLatency := by
    intro p hp
    obtain ⟨i, -, rfl⟩ := List.mem_map.mp hp
    rfl
  have hahead : ∀ p ∈ c'.pending.map due, c.clk + 1 < p.1 ∧ p.1 ≤ c.clk + 1 + spec.readLatency := by
    intro p hp
    rw [hafter] at hp
    rcases List.mem_append.mp hp with hp | hp
    · have h₁ := hlater p hp
      have h₂ := hwithin p hp
      omega
    · have h₁ := hnew p hp
      omega
  refine ⟨?_, ?_, ?_, fun p hp => (hahead p hp).2, ?_⟩
  · rw [answers_logged, ← h.eq, hafter, hpending, List.map_append, ← hnow]
    simp only [List.append_assoc]
  · intro p hp
    rcases List.mem_append.mp hp with hp | hp
    · exact Nat.le_succ_of_le (h.past p hp)
    · obtain ⟨r, -, rfl⟩ := List.mem_map.mp hp
      exact le_rfl
  · intro r hr
    exact (hahead (due r) (List.mem_map_of_mem hr)).1
  · rw [hafter]
    refine List.pairwise_append.mpr ⟨hrestSorted, ?_, fun p hp q hq => ?_⟩
    · cases out.issue with
      | none => exact List.Pairwise.nil
      | some i =>
        by_cases hcmd : i.1 = .RD
        · simp [hcmd]
        · simp [hcmd]
    · have h₁ := hwithin p hp
      have h₂ := hnew q hq
      omega

theorem Run.reads (hstd : Standard spec) (run : Run spec scheduler id h c) :
    ((h.map Prod.snd).foldl recordReads (0, [])).1 = c.clk ∧
      Reads spec c.clk (commands h) (calledBack h) c := by
  induction run with
  | nil =>
    refine ⟨rfl, rfl, fun p hp => ?_, fun r hr => ?_, fun p hp => ?_, List.Pairwise.nil⟩
    · cases hp
    · cases hr
    · cases hp
  | snoc run step ih =>
    obtain ⟨hclock, hreads⟩ := ih
    have htraced := Run.traced hstd run
    cases step with
    | enqueue incoming eq =>
      obtain ⟨-, rfl⟩ := enqueue_eq eq
      unfold commands calledBack at hreads ⊢
      rw [List.map_append, List.foldl_append, List.foldl_append, withQueue_clk]
      refine ⟨hclock, ?_, hreads.past, ?_, ?_, ?_⟩
      · rw [withQueue_pending]
        exact hreads.eq
      · rw [withQueue_pending]
        exact hreads.ahead
      · rw [withQueue_pending]
        exact hreads.within
      · rw [withQueue_pending]
        exact hreads.sorted
    | tick eq =>
      have hnext := hreads.tick hstd htraced.inv eq
      have hclk := (htraced.inv.tick hstd eq).2.1
      have hclock' := htraced.clk
      unfold commands calledBack at hnext ⊢
      rw [List.map_append, List.foldl_append, List.foldl_append, hclk]
      generalize (List.map Prod.snd _).foldl record (0, []) = s at hnext hclock' ⊢
      generalize (List.map Prod.snd _).foldl recordReads (0, []) = s' at hnext hclock ⊢
      refine ⟨congrArg (· + 1) hclock, ?_⟩
      change Reads spec _ (logged s.2 (s.1 + 1) _) (s'.2 ++ (readsOf _).map fun r => (s'.1 + 1, r.addrVec)) _
      rw [← hclock', hclock]
      exact hnext

/-- In every run the reads that have been called back are those whose `RD` was issued `readLatency`
cycles ago or earlier, each at its time and in the order of the commands. -/
theorem reads_called_back (hstd : Standard spec) (run : Run spec scheduler id h c) :
    calledBack h = (answers spec (commands h)).filter fun p => p.1 ≤ c.clk := by
  have hreads := (Run.reads hstd run).2
  rw [← hreads.eq, List.filter_append, List.filter_eq_self.mpr fun p hp => decide_eq_true (hreads.past p hp)]
  rw [List.filter_eq_nil_iff.mpr, List.append_nil]
  intro p hp
  obtain ⟨r, hr, rfl⟩ := List.mem_map.mp hp
  have hahead := hreads.ahead r hr
  rw [decide_eq_true_eq]
  exact not_le.mpr hahead

theorem reads_called_back_spread : ∃ h c, Run HBM_1Gbps .FRFCFS 0 h c ∧
    calledBack h = [(16, [0, 0, 0, 0, 5, 0]), (20, [0, 0, 1, 0, 5, 0])] ∧
    calledBack h = (answers HBM_1Gbps (commands h)).filter fun p => p.1 ≤ c.clk := by
  have hrun : ((reading spread 21).foldlM (play HBM_1Gbps) ([], init HBM_1Gbps .FRFCFS 0)).map
      (fun p => calledBack p.1) = some [(16, [0, 0, 0, 0, 5, 0]), (20, [0, 0, 1, 0, 5, 0])] := by
    decide +kernel
  obtain ⟨⟨h, c⟩, hp, hback⟩ := Option.map_eq_some_iff.mp hrun
  have run : Run HBM_1Gbps .FRFCFS 0 h c :=
    Run.play (fun req hreq => spread_incoming req (mem_reading hreq)) hp
  exact ⟨h, c, run, hback, reads_called_back HBM_1Gbps.standard run⟩

end Controller

end OnnxSim.Ram
