import OnnxSim.Cache.Bank
import OnnxSim.Lib.Machine

/-!
# Runs of an L2 bank

The bank alone (`Cache.step`): any interleaving of its entry points, with any memory response. The
bank with its memory (`Bank.step`): the memory holds what was taken from `_miss_q` and from `_wb_q`
and answers each access once, in any order.

A call of `cycle` is a sequence of smaller steps, the turns of its three loops; `cycle_induction`
carries a property through them.
-/

namespace OnnxSim

namespace Cache

/-- The entry points of the bank. -/
inductive Op
  | pushRequest (req : MemoryAccess)
  | cycle
  | popMissRequest
  | popWbRequest
  | pushMemoryResponse (resp : MemoryAccess)
  | popResponse

def step (c : Cache) : Op → Cache
  | .pushRequest req => c.pushRequest req
  | .cycle => c.cycle
  | .popMissRequest => c.popMissRequest
  | .popWbRequest => c.popWbRequest
  | .pushMemoryResponse resp => c.pushMemoryResponse resp
  | .popResponse => c.popResponse

/-- A run of the bank from its initial state, with any responses. -/
abbrev Run (h : List (Cache × Op)) (c : Cache) : Prop := Machine.Run (Machine.det step) init h c

/-! ## The calls of `process_one_request` in a cycle -/

/-- The states in which `processMany` calls `process_one_request`. -/
def pointsMany : Nat → Cache → List Cache
  | 0, _ => []
  | n + 1, c => c :: if c.processOneRequest.1 then pointsMany n c.processOneRequest.2 else []

def pointsServed : Nat → Cache → List Cache
  | 0, _ => []
  | n + 1, c => if c.headServed then c :: pointsServed n c.processOneRequest.2 else []

/-- The states in which `cycle` calls `process_one_request`. -/
def processPoints (c : Cache) : List Cache :=
  let c := c.continueIssues
  if c.activePending < MAX_PENDING_OBJS - 16 then pointsMany MAX_IN_PER_CYCLE c
  else pointsServed MAX_IN_PER_CYCLE c

section Induction

variable {P : Cache → Prop}

theorem processMany_induction {n : Nat} {c : Cache}
    (hreq : ∀ d ∈ pointsMany n c, P d → P d.processOneRequest.2) (h : P c) :
    P (processMany n c) := by
  induction n generalizing c with
  | zero => exact h
  | succ n ih =>
    have hc := hreq c (by simp [pointsMany]) h
    by_cases hmore : c.processOneRequest.1 = true
    · have heq : processMany (n + 1) c = processMany n c.processOneRequest.2 := by
        simp [processMany, hmore]
      rw [heq]
      exact ih (fun d hd => hreq d (by simp [pointsMany, hmore, hd])) hc
    · have heq : processMany (n + 1) c = c.processOneRequest.2 := by
        simp [processMany, hmore]
      rw [heq]
      exact hc

theorem processServed_induction {n : Nat} {c : Cache}
    (hreq : ∀ d ∈ pointsServed n c, P d → P d.processOneRequest.2) (h : P c) :
    P (processServed n c) := by
  induction n generalizing c with
  | zero => exact h
  | succ n ih =>
    rw [processServed]
    split
    · rename_i hserved
      have hc := hreq c (by simp [pointsServed, hserved]) h
      exact ih (fun d hd => hreq d (by simp [pointsServed, hserved, hd])) hc
    · exact h

theorem continueIssues_induction {c : Cache}
    (hactive : ∀ (d : Cache) (s : Nat), (d.continueIssue s).activeSlots = d.activeSlots)
    (hissue : ∀ (d : Cache), ∀ s ∈ d.activeSlots, P d → P (d.continueIssue s)) (h : P c) :
    P c.continueIssues := by
  unfold continueIssues
  split
  · have key : ∀ (l : List Nat) (d : Cache), (∀ s ∈ l, s ∈ d.activeSlots) → P d →
        P (l.foldl continueIssue d) := by
      intro l
      induction l with
      | nil => exact fun d _ hd => hd
      | cons s l ih =>
        intro d hl hd
        refine ih _ (fun t ht => ?_) (hissue d s (hl s (by simp)) hd)
        rw [hactive]
        exact hl t (List.mem_cons_of_mem _ ht)
    exact key _ c (fun _ hs => hs) h
  · exact h

/-- A property that every turn of the loops keeps is kept by `processRequests`. -/
theorem processRequests_induction {c : Cache}
    (hreq : ∀ d ∈ (if c.activePending < MAX_PENDING_OBJS - 16 then pointsMany MAX_IN_PER_CYCLE c
      else pointsServed MAX_IN_PER_CYCLE c), P d → P d.processOneRequest.2) (h : P c) :
    P c.processRequests := by
  unfold processRequests
  split
  · rename_i hroom
    rw [if_pos hroom] at hreq
    exact processMany_induction hreq h
  · rename_i hroom
    rw [if_neg hroom] at hreq
    exact processServed_induction hreq h

/-- Where a call of `process_one_request` from a state with `P` keeps `P` unless it meets `B`, and
meeting `B` puts the bank into `M`, which lasts and excludes `P`, the loops keep `P` exactly when no
call meets `B`. -/
theorem processRequests_iff {M B : Cache → Prop} {c : Cache}
    (hok : ∀ d : Cache, P d → ¬ B d → P d.processOneRequest.2)
    (hbad : ∀ d : Cache, P d → B d → M d.processOneRequest.2)
    (hlast : ∀ d : Cache, M d → M d.processOneRequest.2) (hexcl : ∀ d, M d → ¬ P d) (h : P c) :
    P c.processRequests ↔
      ∀ d ∈ (if c.activePending < MAX_PENDING_OBJS - 16 then pointsMany MAX_IN_PER_CYCLE c
        else pointsServed MAX_IN_PER_CYCLE c), ¬ B d := by
  have hmany : ∀ (n : Nat) (e : Cache), P e → (P (processMany n e) ↔ ∀ d ∈ pointsMany n e, ¬ B d) := by
    intro n
    induction n with
    | zero => intro e he; simp [processMany, pointsMany, he]
    | succ n ih =>
      intro e he
      by_cases hB : B e
      · have hM : M (processMany (n + 1) e) := by
          by_cases hmore : e.processOneRequest.1 = true
          · have heq : processMany (n + 1) e = processMany n e.processOneRequest.2 := by
              simp [processMany, hmore]
            rw [heq]
            exact processMany_induction (fun d _ => hlast d) (hbad e he hB)
          · have heq : processMany (n + 1) e = e.processOneRequest.2 := by
              simp [processMany, hmore]
            rw [heq]
            exact hbad e he hB
        refine ⟨fun hP => absurd hP (hexcl _ hM), fun hall => ?_⟩
        exact absurd hB (hall e (by simp [pointsMany]))
      · by_cases hmore : e.processOneRequest.1 = true
        · have heq : processMany (n + 1) e = processMany n e.processOneRequest.2 := by
            simp [processMany, hmore]
          rw [heq, ih _ (hok e he hB)]
          simp [pointsMany, hmore, hB]
        · have heq : processMany (n + 1) e = e.processOneRequest.2 := by
            simp [processMany, hmore]
          rw [heq]
          simp [pointsMany, hmore, hB, hok e he hB]
  have hserved : ∀ (n : Nat) (e : Cache), P e →
      (P (processServed n e) ↔ ∀ d ∈ pointsServed n e, ¬ B d) := by
    intro n
    induction n with
    | zero => intro e he; simp [processServed, pointsServed, he]
    | succ n ih =>
      intro e he
      by_cases hs : e.headServed = true
      · have heq : processServed (n + 1) e = processServed n e.processOneRequest.2 := by
          simp [processServed, hs]
        by_cases hB : B e
        · have hM : M (processServed (n + 1) e) := by
            rw [heq]
            exact processServed_induction (fun d _ => hlast d) (hbad e he hB)
          refine ⟨fun hP => absurd hP (hexcl _ hM), fun hall => ?_⟩
          exact absurd hB (hall e (by simp [pointsServed, hs]))
        · rw [heq, ih _ (hok e he hB)]
          simp [pointsServed, hs, hB]
      · simp [processServed, pointsServed, hs, he]
  unfold processRequests
  split
  · exact hmany _ c h
  · exact hserved _ c h

/-- A property that the calls of `process_one_request` keep unless they meet `B` holds at each of the
calls of a cycle when none of them meets `B`. -/
theorem processPoints_forall_of {B : Cache → Prop} {c : Cache}
    (hok : ∀ d : Cache, P d → ¬ B d → P d.processOneRequest.2) (h : P c.continueIssues)
    (hnone : ∀ d ∈ c.processPoints, ¬ B d) : ∀ d ∈ c.processPoints, P d := by
  have hmany : ∀ (n : Nat) (e : Cache), P e → (∀ d ∈ pointsMany n e, ¬ B d) →
      ∀ d ∈ pointsMany n e, P d := by
    intro n
    induction n with
    | zero => simp [pointsMany]
    | succ n ih =>
      intro e he hB d hd
      have hfirst := hok e he (hB e (by simp [pointsMany]))
      rcases List.mem_cons.mp hd with rfl | hd
      · exact he
      · split at hd
        · rename_i hmore
          exact ih _ hfirst (fun x hx => hB x (by simp [pointsMany, hmore, hx])) d hd
        · simp at hd
  have hserved : ∀ (n : Nat) (e : Cache), P e → (∀ d ∈ pointsServed n e, ¬ B d) →
      ∀ d ∈ pointsServed n e, P d := by
    intro n
    induction n with
    | zero => simp [pointsServed]
    | succ n ih =>
      intro e he hB d hd
      by_cases hs : e.headServed = true
      · have hfirst := hok e he (hB e (by simp [pointsServed, hs]))
        rw [pointsServed, if_pos hs] at hd
        rcases List.mem_cons.mp hd with rfl | hd
        · exact he
        · exact ih _ hfirst (fun x hx => hB x (by simp [pointsServed, hs, hx])) d hd
      · simp [pointsServed, hs] at hd
  intro d hd
  rw [processPoints] at hd hnone
  split at hd
  · rename_i hroom
    rw [if_pos hroom] at hnone
    exact hmany _ _ h hnone d hd
  · rename_i hroom
    rw [if_neg hroom] at hnone
    exact hserved _ _ h hnone d hd

/-- A property kept by issuing and by processing holds at every call of `process_one_request`. -/
theorem processPoints_forall {c : Cache} (hcont : P c → P c.continueIssues)
    (hreq : ∀ d : Cache, P d → P d.processOneRequest.2) (h : P c) : ∀ d ∈ c.processPoints, P d :=
  processPoints_forall_of (B := fun _ => False) (fun d hd _ => hreq d hd) (hcont h) fun _ _ => id

end Induction

end Cache

/-- A bank with its memory. `missMem` and `wbMem` are the accesses the memory holds, `pushed` the
requests that entered the bank and `popped` the responses taken from it. -/
structure Bank where
  l2 : Cache := {}
  missMem : List MemoryAccess := []
  wbMem : List MemoryAccess := []
  pushed : List MemoryAccess := []
  popped : List MemoryAccess := []

namespace Bank

inductive Act
  | pushRequest (req : MemoryAccess)
  | cycle
  | popMissRequest
  | popWbRequest
  | answerMiss (i : Nat)
  | answerWb (i : Nat)
  | popResponse

def step (b : Bank) : Act → Option Bank
  | .pushRequest req => some { b with l2 := b.l2.pushRequest req, pushed := b.pushed ++ [req] }
  | .cycle => some { b with l2 := b.l2.cycle }
  | .popMissRequest =>
    b.l2.missQ.head?.map fun m =>
      { b with l2 := b.l2.popMissRequest, missMem := b.missMem ++ [m] }
  | .popWbRequest =>
    b.l2.wbQ.head?.map fun m => { b with l2 := b.l2.popWbRequest, wbMem := b.wbMem ++ [m] }
  | .answerMiss i =>
    b.missMem[i]?.map fun m =>
      { b with l2 := b.l2.pushMemoryResponse m.answered, missMem := b.missMem.eraseIdx i }
  | .answerWb i =>
    b.wbMem[i]?.map fun m =>
      { b with l2 := b.l2.pushMemoryResponse m.answered, wbMem := b.wbMem.eraseIdx i }
  | .popResponse =>
    b.l2.outQ.head?.map fun m => { b with l2 := b.l2.popResponse, popped := b.popped ++ [m] }

abbrev Run (h : List (Bank × Act)) (b : Bank) : Prop :=
  Machine.Run (Machine.partialDet step) {} h b

/-- What a step does to the bank is one of the bank's own steps. -/
theorem step_l2 {b b' : Bank} {a : Act} (h : b.step a = some b') :
    ∃ op, b'.l2 = b.l2.step op := by
  cases a with
  | pushRequest req =>
    obtain rfl := Option.some.inj h
    exact ⟨.pushRequest req, rfl⟩
  | cycle =>
    obtain rfl := Option.some.inj h
    exact ⟨.cycle, rfl⟩
  | popMissRequest =>
    obtain ⟨m, -, rfl⟩ := Option.map_eq_some_iff.mp h
    exact ⟨.popMissRequest, rfl⟩
  | popWbRequest =>
    obtain ⟨m, -, rfl⟩ := Option.map_eq_some_iff.mp h
    exact ⟨.popWbRequest, rfl⟩
  | answerMiss i =>
    obtain ⟨m, -, rfl⟩ := Option.map_eq_some_iff.mp h
    exact ⟨.pushMemoryResponse m.answered, rfl⟩
  | answerWb i =>
    obtain ⟨m, -, rfl⟩ := Option.map_eq_some_iff.mp h
    exact ⟨.pushMemoryResponse m.answered, rfl⟩
  | popResponse =>
    obtain ⟨m, -, rfl⟩ := Option.map_eq_some_iff.mp h
    exact ⟨.popResponse, rfl⟩

/-- A property that every step of the bank keeps holds of the bank in every run with a memory. -/
theorem Run.l2_invariant {P : Cache → Prop} {h : List (Bank × Act)} {b : Bank} (run : Run h b)
    (h0 : P Cache.init) (hstep : ∀ c op, P c → P (c.step op)) : P b.l2 := by
  refine Machine.Run.invariant (P := fun b => P b.l2) run h0 fun t a u ht hs => ?_
  obtain ⟨op, hop⟩ := step_l2 hs
  rw [hop]
  exact hstep _ _ ht

end Bank

end OnnxSim
