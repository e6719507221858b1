import OnnxSim.Interconnect

/-!
# Runs of the simple interconnect

Between each pair of nodes the interconnect is a queue, whatever the arbitration did
(`pair_fifo`). Its latency is kept by the runs in which no push finds the pair's last ready time
more than a cycle behind the one it is owed (`latency_kept`), and not by all runs
(`early_arrival`).
-/

namespace OnnxSim

open Queues

namespace SimpleInterconnect

variable {n latency : Nat} {t u : SimpleInterconnect} {h : List (SimpleInterconnect × Act)}
  {src dest : Nat}

/-! ## What a run pushed, delivered and popped -/

/-- A delivery: an access, its source and the cycle of the call that moved it. -/
structure Arrival where
  src : Nat
  access : MemoryAccess
  cycle : Nat
  deriving DecidableEq

/-- The accesses pushed from `src` to `dest`, each with the cycle of its push. -/
def pushes (src dest : Nat) (h : List (SimpleInterconnect × Act)) : List (MemoryAccess × Nat) :=
  h.filterMap fun p =>
    match p.2 with
    | .push s d access => if s = src ∧ d = dest then some (access, p.1.cycles) else none
    | _ => none

/-- All accesses pushed. -/
def pushed (h : List (SimpleInterconnect × Act)) : List MemoryAccess :=
  h.filterMap fun p =>
    match p.2 with
    | .push _ _ access => some access
    | _ => none

/-- What the calls of `cycle` delivered to `dest`. -/
def arrivals (dest : Nat) (h : List (SimpleInterconnect × Act)) : List Arrival :=
  h.filterMap fun p =>
    match p.2 with
    | .cycle => (p.1.granted dest).map fun (src, e) => { src, access := e.access, cycle := p.1.cycles }
    | _ => none

/-- What the calls of `cycle` delivered to `dest` from `src`. -/
def arrivalsFrom (src dest : Nat) (h : List (SimpleInterconnect × Act)) : List Arrival :=
  (arrivals dest h).filter (·.src == src)

/-- The accesses popped at `dest`. -/
def popped (dest : Nat) (h : List (SimpleInterconnect × Act)) : List MemoryAccess :=
  h.filterMap fun p =>
    match p.2 with
    | .pop nid => if nid = dest then p.1.top dest else none
    | _ => none

/-- All accesses popped. -/
def allPopped (h : List (SimpleInterconnect × Act)) : List MemoryAccess :=
  h.filterMap fun p =>
    match p.2 with
    | .pop nid => p.1.top nid
    | _ => none

/-! ## Steps -/

/-- What a step can do. -/
theorem step_cases {a : Act} (hs : step t a = some u) :
    (∃ src dest access, a = .push src dest access ∧ src < t.nNodes ∧ dest < t.nNodes ∧
      u = t.push src dest access) ∨
    (a = .cycle ∧ u = t.cycle) ∨
    (∃ nid, a = .top nid ∧ u = t) ∨
    (∃ nid access rest, a = .pop nid ∧ nid < t.nNodes ∧ t.outBuffers nid = access :: rest ∧
      u = { t with outBuffers := Function.update t.outBuffers nid rest }) := by
  cases a with
  | push src dest access =>
    simp only [step] at hs
    split at hs
    · next hlt => exact .inl ⟨src, dest, access, rfl, hlt.1, hlt.2, (Option.some.inj hs).symm⟩
    · cases hs
  | cycle => exact .inr (.inl ⟨rfl, (Option.some.inj hs).symm⟩)
  | top nid =>
    simp only [step] at hs
    split at hs
    · obtain ⟨_, -, rfl⟩ := Option.map_eq_some_iff.mp hs
      exact .inr (.inr (.inl ⟨nid, rfl, rfl⟩))
    · cases hs
  | pop nid =>
    simp only [step] at hs
    split at hs
    · next hlt =>
      obtain ⟨access, rest, hcons, rfl⟩ := pop_eq_some hs
      exact .inr (.inr (.inr ⟨nid, access, rest, rfl, hlt, hcons, rfl⟩))
    · cases hs

theorem step_fixed {a : Act} (hs : step t a = some u) :
    u.nNodes = t.nNodes ∧ u.latency = t.latency := by
  rcases step_cases hs with ⟨_, _, _, -, -, -, rfl⟩ | ⟨-, rfl⟩ | ⟨_, -, rfl⟩ |
    ⟨_, _, _, -, -, -, rfl⟩
  · exact ⟨rfl, rfl⟩
  · exact ⟨cycle_nNodes t, cycle_latency t⟩
  · exact ⟨rfl, rfl⟩
  · exact ⟨rfl, rfl⟩

theorem Run.fixed (run : Run n latency h t) : t.nNodes = n ∧ t.latency = latency := by
  refine Machine.Run.invariant (P := fun t => t.nNodes = n ∧ t.latency = latency) run ⟨rfl, rfl⟩
    fun t a u ht hs => ?_
  obtain ⟨hn, hl⟩ := step_fixed hs
  exact ⟨hn.trans ht.1, hl.trans ht.2⟩

/-! ## Each pair is a queue -/

/-- Pushes and deliveries of one pair of nodes, for any relations `R` of a delivery to its push and
`Q` of a waiting entry to its push: a push puts an entry in `Q`, and an entry that is ready is
delivered in `R`. -/
theorem Run.fifo {C : SimpleInterconnect → Act → Prop} {R : MemoryAccess × Nat → Arrival → Prop}
    {Q : MemoryAccess × Nat → Entity → Prop} (run : Run n latency h t)
    (hC : Machine.EachStep C h)
    (hpush : ∀ t access, t.latency = latency → C t (.push src dest access) →
      Q (access, t.cycles) (t.entity src dest access))
    (hready : ∀ p e cycle, Q p e → e.finishCycle ≤ cycle → R p ⟨src, e.access, cycle⟩)
    (hdest : dest < n) :
    Fifo R Q (pushes src dest h) (arrivalsFrom src dest h) (t.inBuffers src dest) := by
  induction run with
  | nil => exact Fifo.nil
  | @snoc h t a u run hs ih =>
    obtain ⟨hC, ha⟩ := Machine.EachStep.snoc_iff.mp hC
    have hfifo := ih hC
    obtain ⟨hn, hlat⟩ := Run.fixed run
    rcases step_cases hs with ⟨s, d, access, rfl, -, -, rfl⟩ | ⟨rfl, rfl⟩ | ⟨nid, rfl, rfl⟩ |
      ⟨nid, access, rest, rfl, -, -, rfl⟩
    · have harr : arrivalsFrom src dest (h ++ [(t, .push s d access)]) =
          arrivalsFrom src dest h := by
        simp [arrivalsFrom, arrivals]
      rw [harr]
      by_cases hpair : s = src ∧ d = dest
      · obtain ⟨rfl, rfl⟩ := hpair
        have hin : (t.push s d access).inBuffers s d =
            t.inBuffers s d ++ [t.entity s d access] := setAt_self _
        have hpushes : pushes s d (h ++ [(t, .push s d access)]) =
            pushes s d h ++ [(access, t.cycles)] := by
          simp [pushes]
        rw [hin, hpushes]
        exact hfifo.enter (hpush t access hlat ha)
      · have hin : (t.push s d access).inBuffers src dest = t.inBuffers src dest :=
          setAt_of_ne (by tauto) _
        have hpushes : pushes src dest (h ++ [(t, .push s d access)]) = pushes src dest h := by
          simp [pushes, hpair]
        rw [hin, hpushes]
        exact hfifo
    · have hpushes : pushes src dest (h ++ [(t, .cycle)]) = pushes src dest h := by
        simp [pushes]
      have hin := cycle_inBuffers (show dest < t.nNodes by omega) src
      rw [hpushes, hin]
      cases hgranted : t.granted dest with
      | none =>
        have harr : arrivalsFrom src dest (h ++ [(t, .cycle)]) = arrivalsFrom src dest h := by
          simp [arrivalsFrom, arrivals, hgranted]
        have hwin : t.winner dest ≠ some src := by
          rintro hwin
          obtain ⟨-, front, rest, hcons, -⟩ := winner_eq_some hwin
          simp [granted, hwin, hcons] at hgranted
        rw [harr, if_neg hwin]
        exact hfifo
      | some p =>
        obtain ⟨hwin, -, rest, hcons, hle⟩ := granted_eq_some hgranted
        by_cases hsrc : p.1 = src
        · have harr : arrivalsFrom src dest (h ++ [(t, .cycle)]) =
              arrivalsFrom src dest h ++ [⟨src, p.2.access, t.cycles⟩] := by
            simp [arrivalsFrom, arrivals, hgranted, hsrc]
          rw [hsrc] at hcons hwin
          rw [hcons] at hfifo
          rw [harr, if_pos hwin, hcons]
          exact hfifo.leave fun q hq => hready q p.2 t.cycles hq hle
        · have harr : arrivalsFrom src dest (h ++ [(t, .cycle)]) = arrivalsFrom src dest h := by
            simp [arrivalsFrom, arrivals, hgranted, hsrc]
          rw [harr, if_neg (by simpa [hwin] using hsrc)]
          exact hfifo
    · simpa [pushes, arrivalsFrom, arrivals] using hfifo
    · simpa [pushes, arrivalsFrom, arrivals] using hfifo

/-- The arrivals at a node have been popped or wait in its out-buffer. -/
theorem Run.arrivals_eq (run : Run n latency h t) (hdest : dest < n) :
    (arrivals dest h).map (·.access) = popped dest h ++ t.outBuffers dest := by
  induction run with
  | nil => rfl
  | @snoc h t a u run hs ih =>
    have hn := (Run.fixed run).1
    rcases step_cases hs with ⟨s, d, access, rfl, -, -, rfl⟩ | ⟨rfl, rfl⟩ | ⟨nid, rfl, rfl⟩ |
      ⟨nid, access, rest, rfl, -, hcons, rfl⟩
    · simpa [arrivals, popped, push] using ih
    · rw [cycle_outBuffers (by omega), ← List.append_assoc]
      have hpopped : popped dest (h ++ [(t, .cycle)]) = popped dest h := by simp [popped]
      rw [hpopped, ← ih]
      cases hgranted : t.granted dest with
      | none => simp [arrivals, hgranted]
      | some p => simp [arrivals, hgranted]
    · simpa [arrivals, popped] using ih
    · have harr : arrivals dest (h ++ [(t, .pop nid)]) = arrivals dest h := by simp [arrivals]
      rw [harr, ih]
      by_cases hnid : nid = dest
      · subst hnid
        simp [popped, top, hcons]
      · simp [popped, hnid, Function.update_of_ne (Ne.symm hnid)]

/-- Nothing is lost and nothing is duplicated. -/
theorem Run.pushed_perm (run : Run n latency h t) :
    (pushed h).Perm (t.held ++ allPopped h) := by
  induction run with
  | nil => simp [pushed, allPopped, held, init]
  | @snoc h t a u run hs ih =>
    rcases step_cases hs with ⟨s, d, access, rfl, hsrc, hdest, rfl⟩ | ⟨rfl, rfl⟩ | ⟨nid, rfl, rfl⟩ |
      ⟨nid, access, rest, rfl, hnid, hcons, rfl⟩
    · have hpushed : pushed (h ++ [(t, .push s d access)]) = pushed h ++ [access] := by
        simp [pushed]
      have hpopped : allPopped (h ++ [(t, .push s d access)]) = allPopped h := by
        simp [allPopped]
      rw [hpushed, hpopped]
      calc (pushed h ++ [access]).Perm (access :: pushed h) := List.perm_append_singleton ..
        List.Perm _ (access :: (t.held ++ allPopped h)) := ih.cons access
        List.Perm _ _ := ((push_held hsrc hdest).symm).append_right (allPopped h)
    · have hpushed : pushed (h ++ [(t, .cycle)]) = pushed h := by simp [pushed]
      have hpopped : allPopped (h ++ [(t, .cycle)]) = allPopped h := by simp [allPopped]
      rw [hpushed, hpopped]
      exact ih.trans ((cycle_held t).symm.append_right _)
    · simpa [pushed, allPopped] using ih
    · have hpushed : pushed (h ++ [(t, .pop nid)]) = pushed h := by simp [pushed]
      have hpopped : allPopped (h ++ [(t, .pop nid)]) = allPopped h ++ [access] := by
        simp [allPopped, top, hcons]
      have hpop : t.pop nid = some { t with outBuffers := Function.update t.outBuffers nid rest } := by
        simp [pop, hcons]
      obtain ⟨access', htop, hheld⟩ := pop_held hnid hpop
      obtain rfl : access = access' := by simpa [top, hcons] using htop
      rw [hpushed, hpopped]
      refine ih.trans ((hheld.append_right _).trans ?_)
      rw [List.cons_append, ← List.append_assoc]
      exact (List.perm_append_singleton _ _).symm

/-- Between each pair of nodes the accesses are delivered in the order they were pushed, and no
access is lost or duplicated; a call of `cycle` delivers at most one access to each node, and one
whenever some head for it is ready. -/
theorem pair_fifo (run : Run n latency h t) :
    (∀ src, ∀ dest < n,
      (arrivalsFrom src dest h).map (·.access) <+: (pushes src dest h).map (·.1) ∧
      (pushes src dest h).map (·.1) =
        (arrivalsFrom src dest h).map (·.access) ++ (t.inBuffers src dest).map (·.access)) ∧
    (∀ dest < n, (arrivals dest h).map (·.access) = popped dest h ++ t.outBuffers dest) ∧
    (pushed h).Perm
      ((grid n n t.inBuffers).map (·.access) ++ pool n t.outBuffers ++ allPopped h) ∧
    ∀ dest < n, ∃ moved, t.cycle.outBuffers dest = t.outBuffers dest ++ moved ∧
      moved.length ≤ 1 ∧
      (moved ≠ [] ↔ ∃ src < n, ∃ front rest, t.inBuffers src dest = front :: rest ∧
        front.finishCycle ≤ t.cycles) := by
  obtain ⟨hn, -⟩ := Run.fixed run
  refine ⟨fun src dest hdest => ?_, fun dest hdest => run.arrivals_eq hdest, ?_,
    fun dest hdest => ?_⟩
  · have hfifo : Fifo (fun p q => p.1 = q.access) (fun p e => p.1 = e.access)
        (pushes src dest h) (arrivalsFrom src dest h) (t.inBuffers src dest) :=
      run.fifo (C := fun _ _ => True) (fun _ _ => trivial) (fun _ _ _ _ => rfl)
        (fun _ _ _ hq _ => hq) hdest
    have heq := hfifo.map_eq (f := (·.1)) (g := (·.access)) (k := (·.access))
      (fun _ _ hR => hR) (fun _ _ hQ => hQ)
    exact ⟨⟨_, heq.symm⟩, heq⟩
  · have hperm := run.pushed_perm
    rwa [held, hn] at hperm
  · rw [← hn] at hdest
    refine ⟨_, cycle_outBuffers hdest, Option.length_toList_le, ?_⟩
    rw [← hn, ← granted_isSome_iff]
    cases t.granted dest <;> simp

/-- A read of the core at node 0. -/
def probe (id : Nat) : MemoryAccess :=
  { ptr := .heap id, id, dramAddress := 0, size := 32, objectSize := 32, write := false,
    request := true, coreId := 0, bufferId := 0 }

/-- Two sources for one destination, where one of them has to wait for its turn. -/
theorem pair_fifo_contention : ∃ h t, Run 3 1 h t ∧ (arrivals 2 h).length = 2 ∧
    (t.inBuffers 0 2).length = 1 ∧
    (arrivalsFrom 0 2 h).map (·.access) <+: (pushes 0 2 h).map (·.1) := by
  let acts : List Act := [.push 0 2 (probe 0), .push 0 2 (probe 1), .push 1 2 (probe 2),
    .cycle, .cycle, .cycle, .top 2, .pop 2]
  have hrun : (Machine.Run.replay step (init 3 1) acts).map
      (fun p => ((arrivals 2 p.1).length, (p.2.inBuffers 0 2).length)) = some (2, 1) := by
    decide +kernel
  obtain ⟨⟨h, t⟩, hreplay, hlen⟩ := Option.map_eq_some_iff.mp hrun
  have run : Run 3 1 h t := Machine.Run.of_replay hreplay
  obtain ⟨harr, hin⟩ := Prod.mk.inj hlen
  exact ⟨h, t, run, harr, hin, ((pair_fifo run).1 0 2 (by decide)).1⟩

/-! ## Latency -/

/-- No delivery happens before the latency of its push has passed: the `k`-th delivery of a pair is
that of its `k`-th push. -/
def LatencyKept (n latency : Nat) (h : List (SimpleInterconnect × Act)) : Prop :=
  ∀ src, ∀ dest < n, ∀ (k : Nat) (q : Arrival), (arrivalsFrom src dest h)[k]? = some q →
    ∃ start, (pushes src dest h)[k]? = some (q.access, start) ∧ start + latency ≤ q.cycle

/-- A push finds the pair's in-buffer empty, or its last ready time at most a cycle before the one
the push is owed. -/
def Timely (icnt : SimpleInterconnect) : Act → Prop
  | .push src dest _ => ∀ back ∈ (icnt.inBuffers src dest).getLast?,
      icnt.cycles + icnt.latency ≤ back.finishCycle + 1
  | .cycle | .top _ | .pop _ => True

instance (icnt : SimpleInterconnect) : DecidablePred (Timely icnt)
  | .push src dest _ => inferInstanceAs (Decidable (∀ back ∈ (icnt.inBuffers src dest).getLast?,
      icnt.cycles + icnt.latency ≤ back.finishCycle + 1))
  | .cycle | .top _ | .pop _ => isTrue trivial

theorem entity_finishCycle {access : MemoryAccess} (h : Timely t (.push src dest access)) :
    t.cycles + t.latency ≤ (t.entity src dest access).finishCycle := by
  cases hlast : (t.inBuffers src dest).getLast? with
  | none => simp [entity, hlast]
  | some back => simpa [entity, hlast] using h back hlast

theorem latency_kept (run : Run n latency h t) (hC : Machine.EachStep Timely h) :
    LatencyKept n latency h := by
  intro src dest hdest k q hq
  have hfifo : Fifo (fun p q => p.1 = q.access ∧ p.2 + latency ≤ q.cycle)
      (fun p e => p.1 = e.access ∧ p.2 + latency ≤ e.finishCycle)
      (pushes src dest h) (arrivalsFrom src dest h) (t.inBuffers src dest) := by
    refine run.fifo hC (fun t access hlat ha => ⟨rfl, ?_⟩)
      (fun p e cycle hp hle => ⟨hp.1, Nat.le_trans hp.2 hle⟩) hdest
    rw [← hlat]
    exact entity_finishCycle ha
  obtain ⟨⟨access, start⟩, hpush, rfl, hle⟩ := hfifo.getElem?_left hq
  exact ⟨start, hpush, hle⟩

/-- A run with a full pair whose pushes are all timely. -/
theorem latency_kept_burst : ∃ h t, Run 2 3 h t ∧ (arrivalsFrom 0 1 h).length = 2 ∧
    LatencyKept 2 3 h := by
  let acts : List Act := [.push 0 1 (probe 0), .push 0 1 (probe 1), .cycle, .push 0 1 (probe 2),
    .cycle, .cycle, .cycle, .cycle]
  have hrun : (Machine.Run.replay step (init 2 3) acts).map
      (fun p => ((arrivalsFrom 0 1 p.1).length, decide (∀ q ∈ p.1, Timely q.1 q.2))) =
        some (2, true) := by
    decide +kernel
  obtain ⟨⟨h, t⟩, hreplay, hobs⟩ := Option.map_eq_some_iff.mp hrun
  have run : Run 2 3 h t := Machine.Run.of_replay hreplay
  obtain ⟨harr, htimely⟩ := Prod.mk.inj hobs
  have hC : ∀ q ∈ h, Timely q.1 q.2 := of_decide_eq_true htimely
  exact ⟨h, t, run, harr, latency_kept run hC⟩

/-- An access pushed at cycle 2 behind one pushed at cycle 0 is ready at cycle 4 with a latency
of 3. -/
theorem early_arrival :
    ¬ ∀ n latency h t, Run n latency h t → LatencyKept n latency h := by
  intro hall
  let acts : List Act := [.push 0 1 (probe 0), .cycle, .cycle, .push 0 1 (probe 1),
    .cycle, .cycle, .cycle]
  have hrun : (Machine.Run.replay step (init 2 3) acts).map
      (fun p => (arrivalsFrom 0 1 p.1, pushes 0 1 p.1)) =
        some ([⟨0, probe 0, 3⟩, ⟨0, probe 1, 4⟩], [(probe 0, 0), (probe 1, 2)]) := by
    decide +kernel
  obtain ⟨⟨h, t⟩, hreplay, hobs⟩ := Option.map_eq_some_iff.mp hrun
  have run : Run 2 3 h t := Machine.Run.of_replay hreplay
  obtain ⟨harr, hpushes⟩ := Prod.mk.inj hobs
  have hsecond : (arrivalsFrom 0 1 h)[1]? = some ⟨0, probe 1, 4⟩ := by rw [harr]; rfl
  obtain ⟨start, hstart, hle⟩ := hall 2 3 h t run 0 1 (by decide) 1 _ hsecond
  rw [hpushes] at hstart
  obtain rfl : 2 = start := by simpa using hstart
  exact absurd hle (by decide)

end SimpleInterconnect

end OnnxSim
