import OnnxSim.Dram.Simple
import OnnxSim.Ramulator.Custody
import OnnxSim.Ramulator.Mapping

/-!
# The DRAM of the simulator

`Ramulator` puts a queue of answers beside the controller of each channel, in which a push reserves a
place that the callback of the request fills; `DramRamulator` passes the calls of the simulator on to
it. With pushes only where `is_full` says no, each request is answered once, in some order, and popped
in the order of the answers (`DramRamulator.refines_abstract`), and no assertion fails but that of the
queue of the refreshes (`DramRamulator.assertions_hold`).
-/

namespace OnnxSim.Ram

/-! ## Ramulator -/

/-- The requests of a simulator are what the `void*` point to. -/
structure OutputPendingQueue where
  numReserved : Nat := 0
  pendingQueue : List (Option MemoryAccess) := []

namespace OutputPendingQueue

variable (q : OutputPendingQueue)

/-- `Size`. -/
def maxSize : Nat := 256

def isAvailable (count : Nat) : Bool := q.numReserved + q.pendingQueue.length + count - 1 < maxSize

/-- `none` stands for a failed assertion. -/
def reserve : Option OutputPendingQueue :=
  if q.numReserved < maxSize then some { q with numReserved := q.numReserved + 1 } else none

def push (addr : Option MemoryAccess) : Option OutputPendingQueue :=
  if 0 < q.numReserved then
    some { numReserved := q.numReserved - 1, pendingQueue := q.pendingQueue ++ [addr] }
  else none

end OutputPendingQueue

structure Ramulator where
  ctrls : Nat → Controller
  outputPendingQueues : Nat → OutputPendingQueue := fun _ => {}

namespace Ramulator

variable (spec : Spec) (type : Mapping) (r : Ramulator)

def isAvailable (ctrlId : Nat) (isWrite : Bool) : Bool :=
  (r.outputPendingQueues ctrlId).isAvailable 1 && !(r.ctrls ctrlId).isFull isWrite

/-- The request that `push` makes. -/
def request (ctrlId : Nat) (addr : AddrType) (isWrite : Bool) (coreId : Nat)
    (original : MemoryAccess) : Request where
  type := if isWrite then .WRITE else .READ
  addr := addr
  addrVec := (decodeMemAddr spec type addr).set 0 ctrlId
  coreid := coreId
  original := some original

def push (ctrlId : Nat) (addr : AddrType) (isWrite : Bool) (coreId : Nat)
    (original : MemoryAccess) : Option Ramulator := do
  let c ← (r.ctrls ctrlId).enqueue (request spec type ctrlId addr isWrite coreId original)
  let q ← (r.outputPendingQueues ctrlId).reserve
  some {
    ctrls := Function.update r.ctrls ctrlId c
    outputPendingQueues := Function.update r.outputPendingQueues ctrlId q }

/-- `Callbacks`. -/
def callback (queues : Nat → OutputPendingQueue) (req : Request) :
    Option (Nat → OutputPendingQueue) :=
  let ctrlId := (req.addrVec.get 0).toNat
  ((queues ctrlId).push req.original).map fun q => Function.update queues ctrlId q

/-- The turn of one controller in `Memory::tick`. -/
def tickCtrl (ch : Nat) : Option Ramulator := do
  let (c, out) ← (r.ctrls ch).tick spec
  let queues ← out.served.foldlM callback r.outputPendingQueues
  some { ctrls := Function.update r.ctrls ch c, outputPendingQueues := queues }

def tick : Option Ramulator := (List.range (spec.count .Channel)).foldlM (tickCtrl spec) r

end Ramulator

/-! ## DramRamulator -/

namespace DramRamulator

variable (spec : Spec) (type : Mapping) (r : Ramulator)

/-- `getAtomicBytes`. -/
def atomicBytes : Nat := spec.prefetchSize * (spec.channelWidth / 8)

def isFull (cid : Nat) (request : MemoryAccess) : Bool := !r.isAvailable cid request.write

def push (cid : Nat) (request : MemoryAccess) : Option Ramulator :=
  if request.dramAddress.toNat % atomicBytes spec = 0 ∧ request.size = atomicBytes spec then
    r.push spec type cid request.dramAddress request.write request.coreId.toNat request.answered
  else none

def top (cid : Nat) : Option (Option MemoryAccess) := (r.outputPendingQueues cid).pendingQueue.head?

def pop (cid : Nat) : Option Ramulator :=
  match (r.outputPendingQueues cid).pendingQueue with
  | [] => none
  | _ :: rest => some { r with
      outputPendingQueues := Function.update r.outputPendingQueues cid
        { r.outputPendingQueues cid with pendingQueue := rest } }

def init (scheduler : SchedulerType) : Ramulator where
  ctrls := Controller.init spec scheduler

inductive Act
  | push (cid : Nat) (request : MemoryAccess)
  | cycle
  | pop (cid : Nat)
  deriving DecidableEq

/-- What the simulator sees to before a push: there is room, and the request is one transaction. -/
def Guarded (cid : Nat) (request : MemoryAccess) : Prop :=
  cid < spec.count .Channel ∧ isFull r cid request = false ∧
    request.dramAddress.toNat % atomicBytes spec = 0 ∧ request.size = atomicBytes spec

instance (cid : Nat) (request : MemoryAccess) : Decidable (Guarded spec r cid request) :=
  inferInstanceAs (Decidable (_ ∧ _ ∧ _ ∧ _))

def step : Act → Option Ramulator
  | .push cid request => if Guarded spec r cid request then push spec type r cid request else none
  | .cycle => r.tick spec
  | .pop cid => pop r cid

abbrev Run (scheduler : SchedulerType) :=
  Machine.Run (Machine.partialDet (step spec type)) (init spec scheduler)

/-- What a simulator calls. -/
def Act.call : Act → Option (Nat × Option MemoryAccess)
  | .push cid request => some (cid, some request)
  | .cycle => none
  | .pop cid => some (cid, none)

end DramRamulator

/-! ## The abstract DRAM -/

/-- The queues of answers are those of `d`, and a place is reserved for each request that waits. -/
def Reserved (queues : Nat → OutputPendingQueue) (d : AbstractDram) : Prop :=
  ∀ ch, (queues ch).pendingQueue = (d.responses ch).map some ∧
    (queues ch).numReserved = (d.waiting ch).length ∧
    (queues ch).numReserved + (queues ch).pendingQueue.length ≤ OutputPendingQueue.maxSize

/-- The requests that a controller holds, as the simulator gets them back. -/
def originals (c : Controller) : List (Option MemoryAccess) := c.outstanding.map (·.original)

/-- `r` is `d` with the controllers. -/
structure Refines (spec : Spec) (r : Ramulator) (d : AbstractDram) : Prop where
  inv : ∀ ch, ∃ log, Controller.Inv spec ch log (r.ctrls ch)
  waiting : ∀ ch, (originals (r.ctrls ch)).Perm ((d.waiting ch).map fun m => some m.answered)
  reserved : Reserved r.outputPendingQueues d

variable {spec : Spec} {type : Mapping} {r r' : Ramulator} {d : AbstractDram}

/-- Requests that are held are of the channel. -/
theorem Controller.Inv.channel_of_mem {id : Nat} {log : List Issue} {c : Controller}
    (h : Controller.Inv spec id log c) {k : Controller.Key} (hk : k ∈ c.outstanding) :
    k.addrVec.get 0 = id := by
  obtain ⟨req, hreq, rfl⟩ := List.mem_map.mp hk
  change req.addrVec.get 0 = id
  simp only [List.mem_append] at hreq
  rcases hreq with ((hreq | hreq) | hreq) | hreq
  · exact (h.kinds .readq req hreq).2.inChannel.channel
  · exact (h.kinds .writeq req hreq).2.inChannel.channel
  · exact (h.kinds .actq req hreq).2.1.inChannel.channel
  · exact (h.pending req hreq).2.1.inChannel.channel

/-- One callback is one answer. -/
theorem Reserved.callback {queues : Nat → OutputPendingQueue} {ch : Nat} {req : Request}
    {rest : List (Option MemoryAccess)} (h : Reserved queues d) (hch : req.addrVec.get 0 = ch)
    (hwaiting : (req.original :: rest).Perm ((d.waiting ch).map fun m => some m.answered)) :
    ∃ queues' i d', Ramulator.callback queues req = some queues' ∧
      d.step (.answer ch i) = some d' ∧ Reserved queues' d' ∧
      rest.Perm ((d'.waiting ch).map fun m => some m.answered) ∧
      ∀ k ≠ ch, d'.waiting k = d.waiting k := by
  obtain ⟨m, hm, horiginal⟩ := List.mem_map.mp (hwaiting.subset List.mem_cons_self)
  obtain ⟨i, hi⟩ := List.mem_iff_getElem?.mp hm
  obtain ⟨hlt, hget⟩ := List.getElem?_eq_some_iff.mp hi
  obtain ⟨hresponses, hreserved, hroom⟩ := h ch
  have hpos : 0 < (queues ch).numReserved := by omega
  have hid : (req.addrVec.get 0).toNat = ch := by omega
  refine ⟨Function.update queues ch {
      numReserved := (queues ch).numReserved - 1
      pendingQueue := (queues ch).pendingQueue ++ [req.original] }, i, {
      waiting := Function.update d.waiting ch ((d.waiting ch).eraseIdx i)
      responses := Function.update d.responses ch (d.responses ch ++ [m.answered]) },
    ?_, ?_, ?_, ?_, ?_⟩
  · unfold Ramulator.callback OutputPendingQueue.push
    simp only [hid, if_pos hpos, Option.map_some]
  · simp only [AbstractDram.step, hi, Option.map_some]
  · intro k
    by_cases hk : k = ch
    · subst hk
      simp only [Function.update_self]
      refine ⟨?_, ?_, ?_⟩
      · rw [hresponses, ← horiginal, List.map_append]
        rfl
      · rw [hreserved, List.length_eraseIdx_of_lt hlt]
      · rw [List.length_append, List.length_singleton]
        omega
    · simp only [Function.update_of_ne hk]
      exact h k
  · simp only [Function.update_self]
    have hsplit := (List.getElem_cons_eraseIdx_perm hlt).map fun m : MemoryAccess =>
      some m.answered
    rw [hget, List.map_cons, horiginal] at hsplit
    exact (hwaiting.trans hsplit.symm).cons_inv
  · intro k hk
    simp only [Function.update_of_ne hk]

/-- The callbacks of a call of `tick` are some answers. -/
theorem Reserved.callbacks {ch : Nat} {rest : List (Option MemoryAccess)} {l : List Request}
    {queues : Nat → OutputPendingQueue} (h : Reserved queues d)
    (hch : ∀ req ∈ l, req.addrVec.get 0 = ch)
    (hwaiting : (l.map (·.original) ++ rest).Perm ((d.waiting ch).map fun m => some m.answered)) :
    ∃ queues' h' d', l.foldlM Ramulator.callback queues = some queues' ∧
      Machine.Run (Machine.partialDet AbstractDram.step) d h' d' ∧ h'.filterMap (·.2.call) = [] ∧
      Reserved queues' d' ∧ rest.Perm ((d'.waiting ch).map fun m => some m.answered) ∧
      ∀ k ≠ ch, d'.waiting k = d.waiting k := by
  induction l generalizing queues d with
  | nil => exact ⟨queues, [], d, rfl, .nil, rfl, h, hwaiting, fun _ _ => rfl⟩
  | cons req l ih =>
    obtain ⟨queues₁, i, d₁, hcall, hstep, h₁, hwaiting₁, hsame₁⟩ :=
      h.callback (hch req List.mem_cons_self) hwaiting
    obtain ⟨queues₂, h₂, d₂, hcalls, run, hnone, hreserved, hwaiting₂, hsame₂⟩ :=
      ih h₁ (fun req' hreq' => hch req' (List.mem_cons_of_mem _ hreq')) hwaiting₁
    refine ⟨queues₂, [(d, .answer ch i)] ++ h₂, d₂, ?_, (Machine.Run.one hstep).append run, ?_,
      hreserved, hwaiting₂, fun k hk => (hsame₂ k hk).trans (hsame₁ k hk)⟩
    · rw [List.foldlM_cons, hcall]
      exact hcalls
    · rw [List.filterMap_append, hnone]
      rfl

/-- The turn of one controller. -/
theorem Refines.tickCtrl (hstd : Standard spec) (h : Refines spec r d) {ch : Nat}
    (hroom : ¬ Controller.Crowded spec (r.ctrls ch)) :
    ∃ r' h' d', r.tickCtrl spec ch = some r' ∧
      Machine.Run (Machine.partialDet AbstractDram.step) d h' d' ∧ h'.filterMap (·.2.call) = [] ∧
      Refines spec r' d' ∧ ∀ k ≠ ch, r'.ctrls k = r.ctrls k := by
  obtain ⟨log, hinv⟩ := h.inv ch
  obtain ⟨⟨c', out⟩, htick⟩ := Option.isSome_iff_exists.mp ((hinv.tick_isSome hstd).mpr hroom)
  obtain ⟨hinv', -, -⟩ := hinv.tick hstd htick
  have hkept := hinv.tick_outstanding hstd htick
  have hch : ∀ req ∈ out.served, req.addrVec.get 0 = ch := by
    intro req hreq
    exact hinv.channel_of_mem (hkept.symm.subset (List.mem_append_left _ (List.mem_map_of_mem hreq)))
  have hwaiting : (out.served.map (·.original) ++ originals c').Perm
      ((d.waiting ch).map fun m => some m.answered) := by
    have hmap := hkept.map (·.original)
    rw [List.map_append, List.map_map] at hmap
    exact hmap.symm.trans (h.waiting ch)
  obtain ⟨queues, h', d', hcalls, run, hnone, hreserved, hrest, hsame⟩ :=
    h.reserved.callbacks hch hwaiting
  refine ⟨{ ctrls := Function.update r.ctrls ch c', outputPendingQueues := queues }, h', d', ?_,
    run, hnone, ⟨fun k => ?_, fun k => ?_, hreserved⟩, fun k hk => Function.update_of_ne hk _ _⟩
  · unfold Ramulator.tickCtrl
    simp only [htick, Option.bind_eq_bind, Option.bind_some, hcalls]
  · by_cases hk : k = ch
    · subst hk
      simp only [Function.update_self]
      exact ⟨_, hinv'⟩
    · simp only [Function.update_of_ne hk]
      exact h.inv k
  · by_cases hk : k = ch
    · subst hk
      simp only [Function.update_self]
      exact hrest
    · simp only [Function.update_of_ne hk]
      rw [hsame k hk]
      exact h.waiting k

theorem Refines.tickCtrl_crowded (hstd : Standard spec) (h : Refines spec r d) {ch : Nat}
    (hcrowded : Controller.Crowded spec (r.ctrls ch)) : r.tickCtrl spec ch = none := by
  obtain ⟨log, hinv⟩ := h.inv ch
  have hnone : (r.ctrls ch).tick spec = none := by
    rw [← Option.not_isSome_iff_eq_none, hinv.tick_isSome hstd]
    exact not_not.mpr hcrowded
  unfold Ramulator.tickCtrl
  rw [hnone]
  rfl

/-- A turn of each controller, unless one is crowded. -/
theorem Refines.turns (hstd : Standard spec) (h : Refines spec r d) (n : Nat) :
    ((∃ ch < n, Controller.Crowded spec (r.ctrls ch)) ∧
      (List.range n).foldlM (Ramulator.tickCtrl spec) r = none) ∨
    (¬ ∃ ch < n, Controller.Crowded spec (r.ctrls ch)) ∧
      ∃ r' h' d', (List.range n).foldlM (Ramulator.tickCtrl spec) r = some r' ∧
        Machine.Run (Machine.partialDet AbstractDram.step) d h' d' ∧ h'.filterMap (·.2.call) = [] ∧
        Refines spec r' d' ∧ ∀ k, n ≤ k → r'.ctrls k = r.ctrls k := by
  induction n with
  | zero =>
    exact .inr ⟨fun ⟨_, hlt, _⟩ => absurd hlt (Nat.not_lt_zero _), r, [], d, rfl, .nil, rfl, h,
      fun _ _ => rfl⟩
  | succ n ih =>
    rw [List.range_succ, List.foldlM_append]
    rcases ih with ⟨⟨ch, hlt, hcrowded⟩, hfold⟩ |
      ⟨hnone, r₁, h₁, d₁, hfold, run₁, hcall₁, href₁, hsame₁⟩
    · rw [hfold]
      exact .inl ⟨⟨ch, Nat.lt_succ_of_lt hlt, hcrowded⟩, rfl⟩
    · rw [hfold]
      by_cases hcrowded : Controller.Crowded spec (r.ctrls n)
      · have hlast := href₁.tickCtrl_crowded hstd (by rw [hsame₁ n le_rfl]; exact hcrowded)
        refine .inl ⟨⟨n, Nat.lt_succ_self n, hcrowded⟩, ?_⟩
        simp [hlast]
      · obtain ⟨r₂, h₂, d₂, hlast, run₂, hcall₂, href₂, hsame₂⟩ :=
          href₁.tickCtrl hstd (by rw [hsame₁ n le_rfl]; exact hcrowded)
        refine .inr ⟨?_, r₂, h₁ ++ h₂, d₂, ?_, run₁.append run₂, ?_, href₂, fun k hk => ?_⟩
        · rintro ⟨ch, hlt, hch⟩
          rcases Nat.lt_succ_iff_lt_or_eq.mp hlt with hlt | rfl
          · exact hnone ⟨ch, hlt, hch⟩
          · exact hcrowded hch
        · simp [hlast]
        · rw [List.filterMap_append, hcall₁, hcall₂]
          rfl
        · rw [hsame₂ k (by omega), hsame₁ k (by omega)]

/-- A guarded push finds room in the controller and among the answers. -/
theorem Refines.push (type : Mapping) (hstd : Standard spec)
    (hint : ∀ level, spec.count level < 2 ^ 31) (h : Refines spec r d) {cid : Nat}
    {request : MemoryAccess} (hguard : DramRamulator.Guarded spec r cid request) :
    ∃ r' d', DramRamulator.push spec type r cid request = some r' ∧
      d.step (.push cid request) = some d' ∧ Refines spec r' d' := by
  obtain ⟨-, hfull, hsize⟩ := hguard
  unfold DramRamulator.isFull Ramulator.isAvailable OutputPendingQueue.isAvailable at hfull
  simp only [Bool.not_eq_false', Bool.and_eq_true, decide_eq_true_eq, Bool.not_eq_true'] at hfull
  obtain ⟨havailable, hroom⟩ := hfull
  obtain ⟨log, hinv⟩ := h.inv cid
  obtain ⟨hresponses, hreserved, -⟩ := h.reserved cid
  let req := Ramulator.request spec type cid request.dramAddress request.write request.coreId.toNat
    request.answered
  have hincoming : Controller.Incoming spec cid req := by
    refine ⟨?_, rfl, decodeMemAddr_addressed type _ cid hstd.count hint⟩
    change (if request.write = true then RequestType.WRITE else .READ) = .READ ∨
      (if request.write = true then RequestType.WRITE else .READ) = .WRITE
    cases request.write
    · exact .inl rfl
    · exact .inr rfl
  obtain ⟨c', henqueue⟩ : ∃ c', (r.ctrls cid).enqueue req = some c' := by
    unfold Controller.isFull at hroom
    have hlength := of_decide_eq_false hroom
    unfold Controller.enqueue
    exact ⟨_, if_neg fun hsame => hlength hsame.symm⟩
  have hkept : (some request.answered :: originals (r.ctrls cid)).Perm (originals c') :=
    (Controller.enqueue_outstanding hincoming henqueue).map fun k : Controller.Key => k.original
  have hreserve : (r.outputPendingQueues cid).reserve = some { r.outputPendingQueues cid with
      numReserved := (r.outputPendingQueues cid).numReserved + 1 } := by
    unfold OutputPendingQueue.reserve
    exact if_pos (by omega)
  refine ⟨{
    ctrls := Function.update r.ctrls cid c'
    outputPendingQueues := Function.update r.outputPendingQueues cid { r.outputPendingQueues cid with
      numReserved := (r.outputPendingQueues cid).numReserved + 1 } },
    { d with waiting := Function.update d.waiting cid (d.waiting cid ++ [request]) }, ?_, rfl,
    ⟨fun k => ?_, fun k => ?_, fun k => ?_⟩⟩
  · unfold DramRamulator.push
    rw [if_pos hsize]
    unfold Ramulator.push
    simp only [Option.bind_eq_bind, hreserve, Option.bind_some]
    change ((r.ctrls cid).enqueue req).bind _ = _
    rw [henqueue]
    rfl
  · by_cases hk : k = cid
    · subst hk
      simp only [Function.update_self]
      exact ⟨log, hinv.enqueue hincoming henqueue⟩
    · simp only [Function.update_of_ne hk]
      exact h.inv k
  · by_cases hk : k = cid
    · subst hk
      simp only [Function.update_self]
      rw [List.map_append]
      exact hkept.symm.trans (((h.waiting k).cons _).trans (List.perm_append_singleton _ _).symm)
    · simp only [Function.update_of_ne hk]
      exact h.waiting k
  · by_cases hk : k = cid
    · subst hk
      simp only [Function.update_self]
      refine ⟨hresponses, ?_, by omega⟩
      rw [hreserved, List.length_append, List.length_singleton]
    · simp only [Function.update_of_ne hk]
      exact h.reserved k

theorem Refines.pop (h : Refines spec r d) {cid : Nat} (hs : DramRamulator.pop r cid = some r') :
    ∃ d', d.step (.pop cid) = some d' ∧ Refines spec r' d' := by
  obtain ⟨hresponses, hreserved, hroom⟩ := h.reserved cid
  unfold DramRamulator.pop at hs
  cases hqueue : (r.outputPendingQueues cid).pendingQueue with
  | nil =>
    rw [hqueue] at hs
    cases hs
  | cons front rest =>
    rw [hqueue] at hs
    obtain rfl := Option.some.inj hs
    rw [hqueue] at hresponses hroom
    obtain ⟨m, rest', hd, -, hrest⟩ := List.map_eq_cons_iff.mp hresponses.symm
    refine ⟨{ d with responses := Function.update d.responses cid rest' }, ?_, h.inv, h.waiting,
      fun k => ?_⟩
    · simp only [AbstractDram.step, hd]
    · by_cases hk : k = cid
      · subst hk
        simp only [Function.update_self]
        rw [List.length_cons] at hroom
        exact ⟨hrest.symm, hreserved, by omega⟩
      · simp only [Function.update_of_ne hk]
        exact h.reserved k

namespace DramRamulator

variable {scheduler : SchedulerType} {h : List (Ramulator × Act)}

theorem Run.refines (hstd : Standard spec) (hint : ∀ level, spec.count level < 2 ^ 31)
    (run : Run spec type scheduler h r) :
    ∃ h' d, Machine.Run (Machine.partialDet AbstractDram.step) {} h' d ∧ Refines spec r d ∧
      h'.filterMap (·.2.call) = h.filterMap (·.2.call) := by
  induction run with
  | nil =>
    have href : Refines spec (init spec scheduler) {} :=
      ⟨fun ch => ⟨[], .init hstd scheduler ch⟩, fun _ => List.Perm.refl _,
        fun _ => ⟨rfl, rfl, Nat.zero_le _⟩⟩
    exact ⟨[], {}, .nil, href, rfl⟩
  | @snoc h r a t run hs ih =>
    obtain ⟨h', d, run', href, hcalls⟩ := ih
    cases a with
    | push cid request =>
      simp only [Machine.partialDet, step] at hs
      by_cases hguard : Guarded spec r cid request
      · obtain ⟨r', d', hpush, hstep, href'⟩ := href.push type hstd hint hguard
        rw [if_pos hguard, hpush] at hs
        obtain rfl := Option.some.inj hs
        have hnext : Machine.Run (Machine.partialDet AbstractDram.step) {}
          (h' ++ [(d, .push cid request)]) d' := run'.snoc hstep
        refine ⟨_, _, hnext, href', ?_⟩
        rw [List.filterMap_append, List.filterMap_append, hcalls]
        rfl
      · rw [if_neg hguard] at hs
        cases hs
    | cycle =>
      rcases href.turns hstd (spec.count .Channel) with
        ⟨-, hnone⟩ | ⟨-, r', h₂, d₂, hsome, run₂, hcall₂, href₂, -⟩
      · cases hs.symm.trans hnone
      · obtain rfl := Option.some.inj (hs.symm.trans hsome)
        refine ⟨h' ++ h₂, d₂, run'.append run₂, href₂, ?_⟩
        rw [List.filterMap_append, List.filterMap_append, hcalls, hcall₂]
        rfl
    | pop cid =>
      obtain ⟨d', hstep, href'⟩ := href.pop hs
      have hnext : Machine.Run (Machine.partialDet AbstractDram.step) {}
        (h' ++ [(d, .pop cid)]) d' := run'.snoc hstep
      refine ⟨_, _, hnext, href', ?_⟩
      rw [List.filterMap_append, List.filterMap_append, hcalls]
      rfl

/-- A run is one of the DRAM that a simulator may expect, with the same calls and the same answers. -/
theorem refines_abstract (hstd : Standard spec) (hint : ∀ level, spec.count level < 2 ^ 31)
    (run : Run spec type scheduler h r) :
    ∃ h' d, Machine.Run (Machine.partialDet AbstractDram.step) {} h' d ∧
      (∀ ch, (r.outputPendingQueues ch).pendingQueue = (d.responses ch).map some) ∧
      h'.filterMap (·.2.call) = h.filterMap (·.2.call) := by
  obtain ⟨h', d, run', href, hcalls⟩ := Run.refines hstd hint run
  exact ⟨h', d, run', fun ch => (href.reserved ch).1, hcalls⟩

/-- After every run: a guarded push fails no assertion, and a cycle fails one exactly if a controller
has no room for the refreshes that are due; no more than 256 places are taken in a channel. -/
theorem assertions_hold (hstd : Standard spec) (hint : ∀ level, spec.count level < 2 ^ 31)
    (run : Run spec type scheduler h r) :
    (∀ cid request, Guarded spec r cid request → ∃ r', push spec type r cid request = some r') ∧
      (r.tick spec = none ↔ ∃ ch < spec.count .Channel, Controller.Crowded spec (r.ctrls ch)) ∧
      ∀ ch, (r.outputPendingQueues ch).numReserved +
        (r.outputPendingQueues ch).pendingQueue.length ≤ OutputPendingQueue.maxSize := by
  obtain ⟨h', d, -, href, -⟩ := Run.refines hstd hint run
  refine ⟨fun cid request hguard => ?_, ?_, fun ch => (href.reserved ch).2.2⟩
  · obtain ⟨r', -, hpush, -⟩ := href.push type hstd hint hguard
    exact ⟨r', hpush⟩
  · rcases href.turns hstd (spec.count .Channel) with
      ⟨hcrowded, hnone⟩ | ⟨hfree, r', -, -, hsome, -⟩
    · exact iff_of_true hnone hcrowded
    · refine iff_of_false (fun hnone => ?_) hfree
      cases hnone.symm.trans hsome

/-! ## A run -/

/-- Two channels of one rank. -/
def HBM_2ch : Spec := HBM.spec .HBM_1Gb .HBM_1Gbps 2 1

theorem HBM_2ch.standard : Standard HBM_2ch :=
  HBM.standard .HBM_1Gb .HBM_1Gbps (by decide) (by decide)

theorem HBM_2ch.count_lt (level : Level) : HBM_2ch.count level < 2 ^ 31 := by
  cases level <;> decide +kernel

/-- A read, or a write, of the first transaction of a channel. -/
def access (id : Nat) (write : Bool) (cid : Nat) : MemoryAccess :=
  { ptr := .heap id, id, dramAddress := BitVec.ofNat 64 (32 * cid), size := 32, objectSize := 32,
    write, request := true, coreId := 0, bufferId := 0 }

/-- A read of one channel and a write of the other, and seventeen cycles. -/
def acts : List Act :=
  [.push 0 (access 0 false 0), .push 1 (access 1 true 1)] ++ List.replicate 17 .cycle ++ [.pop 0]

theorem exists_run_acts : ∃ h r, Run HBM_2ch .RoBaRaCoCh .FRFCFS h r ∧
    (r.outputPendingQueues 0).pendingQueue = [] ∧
    (r.outputPendingQueues 1).pendingQueue = [some (access 1 true 1).answered] := by
  have hrun : (Machine.Run.replay (step HBM_2ch .RoBaRaCoCh) (init HBM_2ch .FRFCFS) acts).map
      (fun p => ((p.2.outputPendingQueues 0).pendingQueue, (p.2.outputPendingQueues 1).pendingQueue)) =
      some ([], [some (access 1 true 1).answered]) := by decide +kernel
  obtain ⟨⟨h, r⟩, hreplay, hobs⟩ := Option.map_eq_some_iff.mp hrun
  obtain ⟨hzero, hone⟩ := Prod.mk.inj hobs
  exact ⟨h, r, Machine.Run.of_replay hreplay, hzero, hone⟩

theorem refines_abstract_acts : ∃ h r, Run HBM_2ch .RoBaRaCoCh .FRFCFS h r ∧
    (r.outputPendingQueues 1).pendingQueue = [some (access 1 true 1).answered] ∧
    ∃ h' d, Machine.Run (Machine.partialDet AbstractDram.step) {} h' d ∧
      (∀ ch, (r.outputPendingQueues ch).pendingQueue = (d.responses ch).map some) ∧
      h'.filterMap (·.2.call) = h.filterMap (·.2.call) := by
  obtain ⟨h, r, run, -, hone⟩ := exists_run_acts
  exact ⟨h, r, run, hone, refines_abstract HBM_2ch.standard HBM_2ch.count_lt run⟩

theorem assertions_hold_acts : ∃ h r, Run HBM_2ch .RoBaRaCoCh .FRFCFS h r ∧
    (r.outputPendingQueues 1).pendingQueue = [some (access 1 true 1).answered] ∧
    (∀ cid request, Guarded HBM_2ch r cid request →
      ∃ r', push HBM_2ch .RoBaRaCoCh r cid request = some r') ∧
    (r.tick HBM_2ch = none ↔
      ∃ ch < HBM_2ch.count .Channel, Controller.Crowded HBM_2ch (r.ctrls ch)) ∧
    ∀ ch, (r.outputPendingQueues ch).numReserved +
      (r.outputPendingQueues ch).pendingQueue.length ≤ OutputPendingQueue.maxSize := by
  obtain ⟨h, r, run, -, hone⟩ := exists_run_acts
  exact ⟨h, r, run, hone, assertions_hold HBM_2ch.standard HBM_2ch.count_lt run⟩

end DramRamulator

end OnnxSim.Ram
