import OnnxSim.Simulator

/-!
# The simple DRAM

`SimpleDram` of `Dram.cc`. The time at which an access may be answered is its latency after its push, but
not before that of the last push, to whatever channel; a call of `cycle` answers at most one access of
each channel. What a run answers, and when, is what a pipeline of each channel for itself answers, with
that latency and one access a cycle (`SimpleDram.Run.answers_eq`): the channels do not delay one another.
To a simulator it is a DRAM that answers in order (`SimpleDram.Run.refines`).
-/

namespace OnnxSim

structure SimpleDram where
  nCh : Nat
  latency : Nat
  cycles : Nat := 0
  /-- Not initialised by the constructor. -/
  lastFinishCycle : Nat
  waitingQueue : Nat → List (Nat × MemoryAccess) := fun _ => []
  responseQueue : Nat → List MemoryAccess := fun _ => []

namespace SimpleDram

variable {s t : SimpleDram} {ch : Nat} {request : MemoryAccess}

/-- The constructor, with what happens to be in the field that it does not initialise. -/
def init (nCh latency lastFinishCycle : Nat) : SimpleDram := { nCh, latency, lastFinishCycle }

def push (s : SimpleDram) (cid : Nat) (request : MemoryAccess) : SimpleDram :=
  let first := max (s.cycles + s.latency) s.lastFinishCycle
  { s with
    lastFinishCycle := first
    waitingQueue :=
      Function.update s.waitingQueue cid (s.waitingQueue cid ++ [(first, request.answered)]) }

/-- The body of the loop of `cycle`. -/
def answer (s : SimpleDram) (ch : Nat) : SimpleDram :=
  match s.waitingQueue ch with
  | [] => s
  | front :: rest =>
    if front.1 ≤ s.cycles then
      { s with
        responseQueue := Function.update s.responseQueue ch (s.responseQueue ch ++ [front.2])
        waitingQueue := Function.update s.waitingQueue ch rest }
    else s

def cycle (s : SimpleDram) : SimpleDram :=
  let s := (List.range s.nCh).foldl answer s
  { s with cycles := s.cycles + 1 }

def isFull (_ : SimpleDram) (_ : Nat) (_ : MemoryAccess) : Bool := false

def isEmpty (s : SimpleDram) (cid : Nat) : Bool := (s.responseQueue cid).isEmpty

def top (s : SimpleDram) (cid : Nat) : Option MemoryAccess := (s.responseQueue cid).head?

def pop (s : SimpleDram) (cid : Nat) : Option SimpleDram :=
  match s.responseQueue cid with
  | [] => none
  | _ :: rest => some { s with responseQueue := Function.update s.responseQueue cid rest }

/-! ## Runs -/

inductive Act
  | push (cid : Nat) (request : MemoryAccess)
  | cycle
  | pop (cid : Nat)
  deriving DecidableEq

def step (s : SimpleDram) : Act → Option SimpleDram
  | .push cid request => if cid < s.nCh then some (s.push cid request) else none
  | .cycle => some s.cycle
  | .pop cid => if cid < s.nCh then s.pop cid else none

abbrev Run (nCh latency lastFinishCycle : Nat) :=
  Machine.Run (Machine.partialDet step) (init nCh latency lastFinishCycle)

/-- What a step can do. -/
theorem step_cases {a : Act} (hs : step s a = some t) :
    (∃ cid request, a = .push cid request ∧ cid < s.nCh ∧ t = s.push cid request) ∨
    (a = .cycle ∧ t = s.cycle) ∨
    (∃ cid front rest, a = .pop cid ∧ cid < s.nCh ∧ s.responseQueue cid = front :: rest ∧
      t = { s with responseQueue := Function.update s.responseQueue cid rest }) := by
  cases a with
  | push cid request =>
    simp only [step] at hs
    split at hs
    · rename_i hcid
      exact .inl ⟨cid, request, rfl, hcid, (Option.some.inj hs).symm⟩
    · cases hs
  | cycle => exact .inr (.inl ⟨rfl, (Option.some.inj hs).symm⟩)
  | pop cid =>
    simp only [step] at hs
    split at hs
    · rename_i hcid
      unfold pop at hs
      split at hs
      · cases hs
      · rename_i front rest hcons
        exact .inr (.inr ⟨cid, front, rest, rfl, hcid, hcons, (Option.some.inj hs).symm⟩)
    · cases hs

/-! ## One call of `cycle` -/

/-- What a call of `cycle` answers of channel `ch`. -/
def answered (s : SimpleDram) (ch : Nat) : Option MemoryAccess :=
  match s.waitingQueue ch with
  | [] => none
  | front :: _ => if front.1 ≤ s.cycles then some front.2 else none

/-- The iterations for the channels below `k` and nothing else have been done since `s`. -/
structure Served (s t : SimpleDram) (k : Nat) : Prop where
  nCh : t.nCh = s.nCh
  latency : t.latency = s.latency
  cycles : t.cycles = s.cycles
  lastFinishCycle : t.lastFinishCycle = s.lastFinishCycle
  waiting : ∀ ch, t.waitingQueue ch =
    if ch < k ∧ (s.answered ch).isSome then (s.waitingQueue ch).tail else s.waitingQueue ch
  response : ∀ ch, t.responseQueue ch =
    if ch < k then s.responseQueue ch ++ (s.answered ch).toList else s.responseQueue ch

theorem answer_cases (s : SimpleDram) (ch : Nat) :
    s.answered ch = none ∧ s.answer ch = s ∨
    ∃ front rest, s.waitingQueue ch = front :: rest ∧ front.1 ≤ s.cycles ∧
      s.answered ch = some front.2 ∧ s.answer ch = { s with
        responseQueue := Function.update s.responseQueue ch (s.responseQueue ch ++ [front.2])
        waitingQueue := Function.update s.waitingQueue ch rest } := by
  unfold answered answer
  cases s.waitingQueue ch with
  | nil => exact .inl ⟨rfl, rfl⟩
  | cons front rest =>
    by_cases hready : front.1 ≤ s.cycles
    · exact .inr ⟨front, rest, rfl, hready, if_pos hready, if_pos hready⟩
    · exact .inl ⟨if_neg hready, if_neg hready⟩

/-- An iteration looks at nothing but the queue of its channel and the clock. -/
theorem answered_congr (hwaiting : t.waitingQueue ch = s.waitingQueue ch)
    (hcycles : t.cycles = s.cycles) : t.answered ch = s.answered ch := by
  unfold answered
  rw [hwaiting, hcycles]

theorem served_foldl (s : SimpleDram) (k : Nat) : Served s ((List.range k).foldl answer s) k := by
  induction k with
  | zero => exact ⟨rfl, rfl, rfl, rfl, fun ch => by simp, fun ch => by simp⟩
  | succ k ih =>
    rw [List.range_succ, List.foldl_append, List.foldl_cons, List.foldl_nil]
    generalize (List.range k).foldl answer s = v at ih
    have hwaiting : v.waitingQueue k = s.waitingQueue k := by simpa using ih.waiting k
    have hresponse : v.responseQueue k = s.responseQueue k := by simpa using ih.response k
    have hanswered := answered_congr hwaiting ih.cycles
    have hlt : ∀ ch, ch ≠ k → (ch < k + 1 ↔ ch < k) := fun ch hch => by omega
    rcases answer_cases v k with ⟨hnone, heq⟩ | ⟨front, rest, hcons, hready, hsome, heq⟩
    · rw [hanswered] at hnone
      rw [heq]
      refine ⟨ih.nCh, ih.latency, ih.cycles, ih.lastFinishCycle, fun ch => ?_, fun ch => ?_⟩
      · by_cases hch : ch = k
        · subst hch
          simp [hwaiting, hnone]
        · simp only [ih.waiting, hlt ch hch]
      · by_cases hch : ch = k
        · subst hch
          simp [hresponse, hnone]
        · simp only [ih.response, hlt ch hch]
    · rw [hanswered] at hsome
      rw [hwaiting] at hcons
      rw [heq]
      refine ⟨ih.nCh, ih.latency, ih.cycles, ih.lastFinishCycle, fun ch => ?_, fun ch => ?_⟩
      · by_cases hch : ch = k
        · subst hch
          simp [hsome, hcons]
        · simp only [Function.update_of_ne hch, ih.waiting, hlt ch hch]
      · by_cases hch : ch = k
        · subst hch
          simp [hsome, hresponse]
        · simp only [Function.update_of_ne hch, ih.response, hlt ch hch]

@[simp] theorem cycle_nCh (s : SimpleDram) : s.cycle.nCh = s.nCh := (served_foldl s s.nCh).nCh

@[simp] theorem cycle_latency (s : SimpleDram) : s.cycle.latency = s.latency :=
  (served_foldl s s.nCh).latency

@[simp] theorem cycle_lastFinishCycle (s : SimpleDram) :
    s.cycle.lastFinishCycle = s.lastFinishCycle := (served_foldl s s.nCh).lastFinishCycle

@[simp] theorem cycle_cycles (s : SimpleDram) : s.cycle.cycles = s.cycles + 1 := by
  have hcycles := (served_foldl s s.nCh).cycles
  simpa [cycle] using hcycles

theorem cycle_waiting (hch : ch < s.nCh) : s.cycle.waitingQueue ch =
    if (s.answered ch).isSome then (s.waitingQueue ch).tail else s.waitingQueue ch := by
  have hwaiting := (served_foldl s s.nCh).waiting ch
  simpa [cycle, hch] using hwaiting

theorem cycle_response (hch : ch < s.nCh) :
    s.cycle.responseQueue ch = s.responseQueue ch ++ (s.answered ch).toList := by
  have hresponse := (served_foldl s s.nCh).response ch
  simpa [cycle, hch] using hresponse

/-! ## What a run answers, and when -/

/-- What has been pushed to channel `ch`, with the cycle of the push. -/
def pushes (ch : Nat) (h : List (SimpleDram × Act)) : List (MemoryAccess × Nat) :=
  h.filterMap fun p =>
    match p.2 with
    | .push cid request => if cid = ch then some (request, p.1.cycles) else none
    | _ => none

/-- What the calls of `cycle` have answered of channel `ch`, with the cycle of the call. -/
def answers (ch : Nat) (h : List (SimpleDram × Act)) : List (MemoryAccess × Nat) :=
  h.filterMap fun p =>
    match p.2 with
    | .cycle => (p.1.answered ch).map fun m => (m, p.1.cycles)
    | _ => none

/-- What has been popped of channel `ch`. -/
def popped (ch : Nat) (h : List (SimpleDram × Act)) : List MemoryAccess :=
  h.filterMap fun p =>
    match p.2 with
    | .pop cid => if cid = ch then p.1.top ch else none
    | _ => none

/-- When a pipeline that has a latency and takes one access a cycle answers: never before `floor`, and
the first access in `slot` at the earliest. -/
def schedule (floor latency slot : Nat) : List (MemoryAccess × Nat) → List (MemoryAccess × Nat)
  | [] => []
  | (m, start) :: rest =>
    let time := max (max floor (start + latency)) slot
    (m.answered, time) :: schedule floor latency (time + 1) rest

/-- The slot after a list of accesses. -/
def slotAfter (floor latency slot : Nat) : List (MemoryAccess × Nat) → Nat
  | [] => slot
  | (_, start) :: rest => slotAfter floor latency (max (max floor (start + latency)) slot + 1) rest

theorem schedule_append (floor latency slot : Nat) (l l' : List (MemoryAccess × Nat)) :
    schedule floor latency slot (l ++ l') =
      schedule floor latency slot l ++ schedule floor latency (slotAfter floor latency slot l) l' := by
  induction l generalizing slot with
  | nil => rfl
  | cons p l ih =>
    rw [List.cons_append, schedule, ih]
    rfl

theorem slotAfter_append (floor latency slot : Nat) (l l' : List (MemoryAccess × Nat)) :
    slotAfter floor latency slot (l ++ l') =
      slotAfter floor latency (slotAfter floor latency slot l) l' := by
  induction l generalizing slot with
  | nil => rfl
  | cons p l ih => exact ih _

/-- What a channel has answered, and what it holds. `done` and `todo` are its pushes. -/
structure Channel (floor latency ch : Nat) (h : List (SimpleDram × Act)) (t : SimpleDram)
    (done todo : List (MemoryAccess × Nat)) : Prop where
  pushes : pushes ch h = done ++ todo
  answers : answers ch h = schedule floor latency 0 done
  past : ∀ p ∈ schedule floor latency 0 done, p.2 < t.cycles
  slot : slotAfter floor latency 0 done ≤ t.cycles
  waiting : t.waitingQueue ch = todo.map fun p => (max floor (p.2 + latency), p.1.answered)
  next : ∀ p ∈ todo.head?, t.cycles ≤ max (max floor (p.2 + latency)) (slotAfter floor latency 0 done)

/-- The clock and the time of the last push. -/
structure Clocked (nCh latency floor : Nat) (t : SimpleDram) : Prop where
  nCh_eq : t.nCh = nCh
  latency_eq : t.latency = latency
  floor_le : floor ≤ t.lastFinishCycle
  last_le : t.lastFinishCycle ≤ max floor (t.cycles + latency)

variable {nCh latency floor : Nat} {h : List (SimpleDram × Act)}

theorem Clocked.step {a : Act} (hc : Clocked nCh latency floor s) (hs : step s a = some t) :
    Clocked nCh latency floor t := by
  obtain ⟨hnCh, hlatency, hfloor, hlast⟩ := hc
  rcases step_cases hs with ⟨cid, request, rfl, -, rfl⟩ | ⟨rfl, rfl⟩ | ⟨cid, front, rest, rfl, -, -, rfl⟩
  · refine ⟨hnCh, hlatency, ?_, ?_⟩ <;> simp only [push] <;> omega
  · refine ⟨by simpa using hnCh, by simpa using hlatency, by simpa using hfloor, ?_⟩
    rw [cycle_lastFinishCycle, cycle_cycles]
    omega
  · exact ⟨hnCh, hlatency, hfloor, hlast⟩

theorem Run.clocked (run : Run nCh latency floor h t) : Clocked nCh latency floor t :=
  Machine.Run.invariant (P := Clocked nCh latency floor) run
    ⟨rfl, rfl, le_rfl, Nat.le_max_left _ _⟩ fun _ _ _ hc hs => hc.step hs

/-- A push that is not to the channel, and a pop. -/
theorem Channel.congr {done todo : List (MemoryAccess × Nat)} {a : Act}
    (hch : Channel floor latency ch h s done todo) (hcycles : t.cycles = s.cycles)
    (hwaiting : t.waitingQueue ch = s.waitingQueue ch)
    (hpushes : SimpleDram.pushes ch [(s, a)] = []) (hanswers : SimpleDram.answers ch [(s, a)] = []) :
    Channel floor latency ch (h ++ [(s, a)]) t done todo := by
  have happ : SimpleDram.pushes ch (h ++ [(s, a)]) = SimpleDram.pushes ch h := by
    rw [SimpleDram.pushes, List.filterMap_append]
    exact (congrArg _ hpushes).trans (List.append_nil _)
  have happ' : SimpleDram.answers ch (h ++ [(s, a)]) = SimpleDram.answers ch h := by
    rw [SimpleDram.answers, List.filterMap_append]
    exact (congrArg _ hanswers).trans (List.append_nil _)
  exact ⟨happ.trans hch.pushes, happ'.trans hch.answers, hcycles ▸ hch.past, hcycles ▸ hch.slot,
    hwaiting.trans hch.waiting, hcycles ▸ hch.next⟩

theorem Channel.push {done todo : List (MemoryAccess × Nat)}
    (hch : Channel floor latency ch h s done todo) (hc : Clocked nCh latency floor s)
    (request : MemoryAccess) :
    Channel floor latency ch (h ++ [(s, .push ch request)]) (s.push ch request) done
      (todo ++ [(request, s.cycles)]) := by
  have hfirst : max (s.cycles + s.latency) s.lastFinishCycle = max floor (s.cycles + latency) := by
    obtain ⟨-, hlatency, hfloor, hlast⟩ := hc
    omega
  refine ⟨?_, ?_, hch.past, hch.slot, ?_, fun p hp => ?_⟩
  · rw [← List.append_assoc, ← hch.pushes]
    simp [SimpleDram.pushes]
  · rw [← hch.answers]
    simp [SimpleDram.answers]
  · rw [List.map_append, List.map_singleton, ← hch.waiting, ← hfirst]
    exact Function.update_self ..
  · cases todo with
    | nil =>
      obtain rfl : (request, s.cycles) = p := by simpa using hp
      have hslot : (s.push ch request).cycles = s.cycles := rfl
      rw [hslot]
      omega
    | cons q todo => exact hch.next p (by simpa using hp)

theorem Channel.cycle {done todo : List (MemoryAccess × Nat)}
    (hch : Channel floor latency ch h s done todo) (hlt : ch < s.nCh) :
    ∃ done' todo', Channel floor latency ch (h ++ [(s, .cycle)]) s.cycle done' todo' := by
  have hpushes : SimpleDram.pushes ch (h ++ [(s, .cycle)]) = SimpleDram.pushes ch h := by
    simp [SimpleDram.pushes]
  have hanswers : SimpleDram.answers ch (h ++ [(s, .cycle)]) =
      SimpleDram.answers ch h ++ ((s.answered ch).map fun m => (m, s.cycles)).toList := by
    rw [SimpleDram.answers, List.filterMap_append]
    cases hanswered : s.answered ch <;> simp [SimpleDram.answers, hanswered]
  have hpast : ∀ p ∈ schedule floor latency 0 done, p.2 < s.cycle.cycles := by
    intro p hp
    have hlt := hch.past p hp
    rw [cycle_cycles]
    omega
  have hslot := hch.slot
  cases todo with
  | nil =>
    have hempty : s.waitingQueue ch = [] := hch.waiting
    have hnone : s.answered ch = none := by simp [answered, hempty]
    refine ⟨done, [], ⟨hpushes.trans hch.pushes, ?_, hpast, ?_, ?_, fun p hp => nomatch hp⟩⟩
    · rw [hanswers, hnone, hch.answers]
      exact List.append_nil _
    · rw [cycle_cycles]
      omega
    · rw [cycle_waiting hlt, hnone]
      exact hempty
  | cons p todo =>
    obtain ⟨request, start⟩ := p
    have hnext : s.cycles ≤ max (max floor (start + latency)) (slotAfter floor latency 0 done) :=
      hch.next (request, start) rfl
    have hwaiting : s.waitingQueue ch = (max floor (start + latency), request.answered) ::
        todo.map fun p => (max floor (p.2 + latency), p.1.answered) := hch.waiting
    by_cases hready : max floor (start + latency) ≤ s.cycles
    · have hsome : s.answered ch = some request.answered := by
        simp only [answered, hwaiting, hready, if_true]
      -- it is answered in its slot
      have htime : max (max floor (start + latency)) (slotAfter floor latency 0 done) = s.cycles := by
        omega
      have hone : schedule floor latency (slotAfter floor latency 0 done) [(request, start)] =
          [(request.answered, s.cycles)] := by
        simp only [schedule, htime]
      have hafter : slotAfter floor latency 0 (done ++ [(request, start)]) = s.cycles + 1 := by
        rw [slotAfter_append]
        simp only [slotAfter, htime]
      refine ⟨done ++ [(request, start)], todo, ⟨?_, ?_, ?_, ?_, ?_, ?_⟩⟩
      · rw [hpushes, hch.pushes]
        simp
      · rw [hanswers, hsome, hch.answers, schedule_append, hone]
        rfl
      · rw [schedule_append, hone]
        intro p hp
        rcases List.mem_append.mp hp with hp | hp
        · exact hpast p hp
        · rw [List.mem_singleton.mp hp, cycle_cycles]
          exact Nat.lt_succ_self _
      · rw [hafter, cycle_cycles]
      · rw [cycle_waiting hlt, hsome, hwaiting]
        rfl
      · intro p hp
        rw [hafter, cycle_cycles]
        omega
    · have hnone : s.answered ch = none := by
        simp only [answered, hwaiting, hready, if_false]
      refine ⟨done, (request, start) :: todo, ⟨hpushes.trans hch.pushes, ?_, hpast, ?_, ?_, ?_⟩⟩
      · rw [hanswers, hnone, hch.answers]
        exact List.append_nil _
      · rw [cycle_cycles]
        omega
      · rw [cycle_waiting hlt, hnone]
        exact hwaiting
      · intro p hp
        obtain rfl : (request, start) = p := by simpa using hp
        rw [cycle_cycles]
        simp only at hready ⊢
        omega

theorem Run.channel (run : Run nCh latency floor h t) (hch : ch < nCh) :
    ∃ done todo, Channel floor latency ch h t done todo := by
  induction run with
  | nil => exact ⟨[], [], rfl, rfl, fun p hp => (nomatch hp), Nat.zero_le _, rfl, fun p hp => (nomatch hp)⟩
  | @snoc h s a t run hs ih =>
    obtain ⟨done, todo, hchannel⟩ := ih
    have hclocked := Run.clocked run
    rcases step_cases hs with ⟨cid, request, rfl, -, rfl⟩ | ⟨rfl, rfl⟩ | ⟨cid, front, rest, rfl, -, -, rfl⟩
    · by_cases hcid : cid = ch
      · subst hcid
        exact ⟨done, _, hchannel.push hclocked request⟩
      · have hwaiting : (s.push cid request).waitingQueue ch = s.waitingQueue ch :=
          Function.update_of_ne (Ne.symm hcid) _ _
        exact ⟨done, todo, hchannel.congr rfl hwaiting (by simp [SimpleDram.pushes, hcid]) rfl⟩
    · exact hchannel.cycle (hclocked.nCh_eq ▸ hch)
    · exact ⟨done, todo, hchannel.congr rfl rfl rfl rfl⟩

/-- What a run has answered of a channel, and when: what a pipeline of the channel's own would have, up to
now. -/
theorem Run.answers_eq (run : Run nCh latency floor h t) (hch : ch < nCh) :
    answers ch h = (schedule floor latency 0 (pushes ch h)).takeWhile fun p => p.2 < t.cycles := by
  obtain ⟨done, todo, hchannel⟩ := run.channel hch
  rw [hchannel.pushes, schedule_append, hchannel.answers,
    List.takeWhile_append_of_pos fun p hp => decide_eq_true (hchannel.past p hp)]
  cases todo with
  | nil => simp [schedule]
  | cons p todo =>
    have hnext := hchannel.next p rfl
    have hnot : ¬ max (max floor (p.2 + latency)) (slotAfter floor latency 0 done) < t.cycles := by
      omega
    rw [schedule, List.takeWhile_cons_of_neg (by simpa using hnot), List.append_nil]

/-- What has been answered has been popped or can be. -/
theorem Run.answers_popped (run : Run nCh latency floor h t) (hch : ch < nCh) :
    (answers ch h).map Prod.fst = popped ch h ++ t.responseQueue ch := by
  induction run with
  | nil => rfl
  | @snoc h s a t run hs ih =>
    have hclocked := Run.clocked run
    rcases step_cases hs with ⟨cid, request, rfl, -, rfl⟩ | ⟨rfl, rfl⟩ | ⟨cid, front, rest, rfl, -, hcons, rfl⟩
    · simpa [answers, popped, push] using ih
    · have hpopped : popped ch (h ++ [(s, .cycle)]) = popped ch h := by simp [popped]
      rw [cycle_response (hclocked.nCh_eq ▸ hch), hpopped, ← List.append_assoc, ← ih]
      cases hanswered : s.answered ch <;> simp [answers, hanswered]
    · have hanswers : answers ch (h ++ [(s, .pop cid)]) = answers ch h := by simp [answers]
      rw [hanswers, ih]
      by_cases hcid : cid = ch
      · subst hcid
        simp [popped, top, hcons]
      · simp [popped, hcid, Function.update_of_ne (Ne.symm hcid)]

end SimpleDram

/-! ## To a simulator -/

namespace AbstractDram

/-- The calls on a DRAM, and its answers. -/
inductive Act
  | push (ch : Nat) (m : MemoryAccess)
  | answer (ch i : Nat)
  | pop (ch : Nat)
  deriving DecidableEq

def step (d : AbstractDram) : Act → Option AbstractDram
  | .push ch m => some { d with waiting := Function.update d.waiting ch (d.waiting ch ++ [m]) }
  | .answer ch i => (d.waiting ch)[i]?.map fun m => {
      waiting := Function.update d.waiting ch ((d.waiting ch).eraseIdx i)
      responses := Function.update d.responses ch (d.responses ch ++ [m.answered]) }
  | .pop ch =>
    match d.responses ch with
    | [] => none
    | _ :: rest => some { d with responses := Function.update d.responses ch rest }

/-- What a simulator calls. -/
def Act.call : Act → Option (Nat × Option MemoryAccess)
  | .push ch m => some (ch, some m)
  | .answer _ _ => none
  | .pop ch => some (ch, none)

end AbstractDram

namespace SimpleDram

variable {s t : SimpleDram} {d : AbstractDram} {nCh latency floor : Nat}
  {h : List (SimpleDram × Act)}

/-- What a simulator calls. -/
def Act.call : Act → Option (Nat × Option MemoryAccess)
  | .push ch m => some (ch, some m)
  | .cycle => none
  | .pop ch => some (ch, none)

/-- `s` is `d` with times. -/
structure Times (s : SimpleDram) (d : AbstractDram) : Prop where
  waiting : ∀ ch, (s.waitingQueue ch).map Prod.snd = (d.waiting ch).map MemoryAccess.answered
  responses : ∀ ch, s.responseQueue ch = d.responses ch

/-- The body of the loop of `cycle` is an answer to the access that has waited longest, or nothing. -/
theorem Times.answer (ht : Times s d) (ch : Nat) :
    ∃ h' d', Machine.Run (Machine.partialDet AbstractDram.step) d h' d' ∧ Times (s.answer ch) d' ∧
      h'.filterMap (·.2.call) = [] := by
  rcases answer_cases s ch with ⟨-, heq⟩ | ⟨front, rest, hcons, -, -, heq⟩
  · refine ⟨[], d, .nil, ?_, rfl⟩
    rw [heq]
    exact ht
  · have hmap := ht.waiting ch
    rw [hcons, List.map_cons] at hmap
    obtain ⟨m, rest', hd, hm, hrest⟩ := List.map_eq_cons_iff.mp hmap.symm
    have hstep : d.step (.answer ch 0) = some {
        waiting := Function.update d.waiting ch rest'
        responses := Function.update d.responses ch (d.responses ch ++ [front.2]) } := by
      simp [AbstractDram.step, hd, hm]
    refine ⟨_, _, .one hstep, ?_, rfl⟩
    rw [heq]
    refine ⟨fun i => ?_, fun i => ?_⟩
    · by_cases hi : i = ch
      · subst hi
        simp [hrest]
      · simp only [Function.update_of_ne hi, ht.waiting]
    · by_cases hi : i = ch
      · subst hi
        simp [ht.responses]
      · simp only [Function.update_of_ne hi, ht.responses]

theorem Times.cycle (ht : Times s d) :
    ∃ h' d', Machine.Run (Machine.partialDet AbstractDram.step) d h' d' ∧ Times s.cycle d' ∧
      h'.filterMap (·.2.call) = [] := by
  have hfold : ∀ k, ∃ h' d', Machine.Run (Machine.partialDet AbstractDram.step) d h' d' ∧
      Times ((List.range k).foldl SimpleDram.answer s) d' ∧ h'.filterMap (·.2.call) = [] := by
    intro k
    induction k with
    | zero => exact ⟨[], d, .nil, ht, rfl⟩
    | succ k ih =>
      obtain ⟨h₁, d₁, run₁, ht₁, hcall₁⟩ := ih
      obtain ⟨h₂, d₂, run₂, ht₂, hcall₂⟩ := ht₁.answer k
      refine ⟨h₁ ++ h₂, d₂, run₁.append run₂, ?_, ?_⟩
      · rw [List.range_succ, List.foldl_append]
        exact ht₂
      · rw [List.filterMap_append, hcall₁, hcall₂, List.append_nil]
  obtain ⟨h', d', run', ht', hcall⟩ := hfold s.nCh
  exact ⟨h', d', run', ⟨ht'.waiting, ht'.responses⟩, hcall⟩

/-- A run is one of the DRAM that a simulator may expect, with the same calls and the same responses. -/
theorem Run.refines (run : Run nCh latency floor h t) :
    ∃ h' d, Machine.Run (Machine.partialDet AbstractDram.step) {} h' d ∧ Times t d ∧
      h'.filterMap (·.2.call) = h.filterMap (·.2.call) := by
  induction run with
  | nil => exact ⟨[], {}, .nil, ⟨fun _ => rfl, fun _ => rfl⟩, rfl⟩
  | @snoc h s a t run hs ih =>
    obtain ⟨h', d, run', ht, hcalls⟩ := ih
    rcases step_cases hs with ⟨cid, request, rfl, -, rfl⟩ | ⟨rfl, rfl⟩ | ⟨cid, front, rest, rfl, -, hcons, rfl⟩
    · have hstep : d.step (.push cid request) = some { d with
          waiting := Function.update d.waiting cid (d.waiting cid ++ [request]) } := rfl
      have run'' : Machine.Run (Machine.partialDet AbstractDram.step) {}
        (h' ++ [(d, .push cid request)]) _ := run'.snoc hstep
      refine ⟨_, _, run'', ⟨fun i => ?_, ht.responses⟩, ?_⟩
      · by_cases hi : i = cid
        · subst hi
          simp [push, ht.waiting]
        · simp only [push, Function.update_of_ne hi, ht.waiting]
      · rw [List.filterMap_append, hcalls, List.filterMap_append]
        rfl
    · obtain ⟨h'', d', run'', ht', hcall⟩ := ht.cycle
      refine ⟨h' ++ h'', d', run'.append run'', ht', ?_⟩
      rw [List.filterMap_append, hcall, hcalls, List.filterMap_append]
      rfl
    · have hd : d.responses cid = front :: rest := (ht.responses cid) ▸ hcons
      have hstep : d.step (.pop cid) = some { d with
          responses := Function.update d.responses cid rest } := by
        simp [AbstractDram.step, hd]
      have run'' : Machine.Run (Machine.partialDet AbstractDram.step) {}
        (h' ++ [(d, .pop cid)]) _ := run'.snoc hstep
      refine ⟨_, _, run'', ⟨ht.waiting, fun i => ?_⟩, ?_⟩
      · by_cases hi : i = cid
        · subst hi
          simp
        · simp only [Function.update_of_ne hi, ht.responses]
      · rw [List.filterMap_append, hcalls, List.filterMap_append]
        rfl

/-- Each channel of the simple DRAM is a pipeline of its own: what it has answered and when, whatever is
pushed to the other channels. Nothing is lost, and a simulator sees a DRAM as it expects one. -/
theorem pipelined (run : Run nCh latency floor h t) :
    (∀ ch < nCh,
      answers ch h = ((schedule floor latency 0 (pushes ch h)).takeWhile fun p => p.2 < t.cycles) ∧
      (answers ch h).map Prod.fst = popped ch h ++ t.responseQueue ch) ∧
    ∃ h' d, Machine.Run (Machine.partialDet AbstractDram.step) {} h' d ∧
      (∀ ch, d.responses ch = t.responseQueue ch) ∧
      h'.filterMap (·.2.call) = h.filterMap (·.2.call) := by
  refine ⟨fun ch hch => ⟨run.answers_eq hch, run.answers_popped hch⟩, ?_⟩
  obtain ⟨h', d, run', ht, hcalls⟩ := run.refines
  exact ⟨h', d, run', fun ch => (ht.responses ch).symm, hcalls⟩

/-- A read at address 0. -/
def read (id : Nat) : MemoryAccess :=
  { ptr := .heap id, id, dramAddress := 0, size := 32, objectSize := 32, write := false,
    request := true, coreId := 0, bufferId := 0 }

/-- Two accesses of channel 0 and one of channel 1, of which one is popped. -/
theorem pipelined_burst : ∃ h t, Run 2 3 0 h t ∧
    answers 0 h = [((read 0).answered, 3), ((read 2).answered, 4)] ∧ popped 0 h = [(read 0).answered] ∧
    (∀ ch < 2,
      answers ch h = ((schedule 0 3 0 (pushes ch h)).takeWhile fun p => p.2 < t.cycles) ∧
      (answers ch h).map Prod.fst = popped ch h ++ t.responseQueue ch) ∧
    ∃ h' d, Machine.Run (Machine.partialDet AbstractDram.step) {} h' d ∧
      (∀ ch, d.responses ch = t.responseQueue ch) ∧
      h'.filterMap (·.2.call) = h.filterMap (·.2.call) := by
  let acts : List Act := [.push 0 (read 0), .push 1 (read 1), .push 0 (read 2), .cycle, .cycle, .cycle,
    .cycle, .pop 0, .cycle]
  have hrun : (Machine.Run.replay step (init 2 3 0) acts).map
      (fun p => (answers 0 p.1, popped 0 p.1)) =
        some ([((read 0).answered, 3), ((read 2).answered, 4)], [(read 0).answered]) := by
    decide +kernel
  obtain ⟨⟨h, t⟩, hreplay, hobs⟩ := Option.map_eq_some_iff.mp hrun
  have run : Run 2 3 0 h t := Machine.Run.of_replay hreplay
  obtain ⟨hanswers, hpopped⟩ := Prod.mk.inj hobs
  exact ⟨h, t, run, hanswers, hpopped, pipelined run⟩

end SimpleDram

end OnnxSim
