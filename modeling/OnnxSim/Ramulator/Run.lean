import OnnxSim.Lib.Machine
import OnnxSim.Ramulator.Controller
import OnnxSim.Ramulator.Fits

/-!
# Runs of the memory controller

The calls on a controller are those of `enqueue` with reads and writes of its channel, and those of
`tick`. What each part of a call of `tick` does is stated once for each part; all invariants are derived
from this.
-/

namespace OnnxSim.Ram

namespace Controller

variable {spec : Spec} {c c' : Controller} {req : Request} {cmd : Command} {name : QueueName}

/-- The controller of channel `id`. -/
def init (spec : Spec) (scheduler : SchedulerType) (id : Nat) : Controller where
  channel := DRAM.new spec DRAM.levels .Channel id
  scheduler := scheduler

inductive Act
  | enqueue (req : Request)
  | tick (out : Outcome)
  deriving DecidableEq

/-- A new read or write of the channel. -/
structure Incoming (spec : Spec) (id : Nat) (req : Request) : Prop where
  type : req.type = .READ ∨ req.type = .WRITE
  isFirstCommand : req.isFirstCommand = true
  addr : Addressed spec id req.addrVec

inductive Step (spec : Spec) (id : Nat) : Controller → Act → Controller → Prop
  | enqueue {c c' : Controller} {req : Request} (incoming : Incoming spec id req)
      (eq : c.enqueue req = some c') : Step spec id c (.enqueue req) c'
  | tick {c c' : Controller} {out : Outcome} (eq : c.tick spec = some (c', out)) :
      Step spec id c (.tick out) c'

abbrev Run (spec : Spec) (scheduler : SchedulerType) (id : Nat) :=
  Machine.Run (Step spec id) (init spec scheduler id)

/-! ## Queues -/

@[simp] theorem queue_withQueue (q : List Request) : (c.withQueue name q).queue name = q := by
  cases name <;> rfl

theorem queue_withQueue_of_ne {name' : QueueName} (h : name' ≠ name) (q : List Request) :
    (c.withQueue name q).queue name' = c.queue name' := by
  cases name <;> cases name' <;> first | rfl | exact absurd rfl h

@[simp] theorem withQueue_clk (q : List Request) : (c.withQueue name q).clk = c.clk := by
  cases name <;> rfl

@[simp] theorem withQueue_channel (q : List Request) : (c.withQueue name q).channel = c.channel := by
  cases name <;> rfl

@[simp] theorem withQueue_rowtable (q : List Request) :
    (c.withQueue name q).rowtable = c.rowtable := by
  cases name <;> rfl

@[simp] theorem withQueue_pending (q : List Request) : (c.withQueue name q).pending = c.pending := by
  cases name <;> rfl

/-- What `enqueue` does where it does not return `false`. -/
theorem enqueue_eq (h : c.enqueue req = some c') :
    (c.queue (getQueue req.type)).length ≠ queueMax ∧
    c' = c.withQueue (getQueue req.type)
      (c.queue (getQueue req.type) ++ [{ req with arrive := c.clk }]) := by
  unfold enqueue at h
  simp only at h
  split at h
  · cases h
  · rename_i hfull
    exact ⟨fun h' => hfull h'.symm, (Option.some.inj h).symm⟩

/-! ## The parts of `tick` -/

theorem serve_cases {reads : List Request} (h : c.serve = some (c', reads)) :
    (c' = c ∧ reads = [] ∧ ∀ r ∈ c.pending.head?, c.clk < r.depart) ∨
    ∃ r rest ch, c.pending = r :: rest ∧ r.type = .READ ∧ r.depart ≤ c.clk ∧ reads = [r] ∧
      c' = { c with channel := ch, pending := rest } ∧
      (if 1 < r.depart - r.arrive then c.channel.updateServingRequests r.addrVec (-1) c.clk = some ch
        else ch = c.channel) := by
  unfold serve at h
  split at h
  · rename_i hnil
    obtain ⟨rfl, rfl⟩ := Prod.mk.inj (Option.some.inj h)
    exact .inl ⟨rfl, rfl, by simp [hnil]⟩
  · rename_i r rest hcons
    split at h
    · rename_i htype
      split at h
      · rename_i hdepart
        by_cases hlong : 1 < r.depart - r.arrive
        · simp only [if_pos hlong, updateServingRequests, Option.bind_eq_bind,
            Option.bind_eq_some_iff, Option.map_eq_some_iff] at h
          obtain ⟨_, ⟨ch, hch, rfl⟩, h⟩ := h
          obtain ⟨rfl, rfl⟩ := Prod.mk.inj (Option.some.inj h)
          exact .inr ⟨r, rest, ch, hcons, htype, hdepart, rfl, rfl, by rw [if_pos hlong]; exact hch⟩
        · simp only [if_neg hlong, Option.bind_eq_bind, Option.bind_some] at h
          obtain ⟨rfl, rfl⟩ := Prod.mk.inj (Option.some.inj h)
          exact .inr ⟨r, rest, c.channel, hcons, htype, hdepart, rfl, rfl, by rw [if_neg hlong]⟩
      · rename_i hdepart
        obtain ⟨rfl, rfl⟩ := Prod.mk.inj (Option.some.inj h)
        exact .inl ⟨rfl, rfl, by rw [hcons]; simpa using hdepart⟩
    · cases h

/-- The refreshes that `inject_refresh` puts into the queue. -/
def refreshes (c : Controller) (n : Nat) : List Request :=
  (List.range n).map fun i => {
    type := .REFRESH
    addr := BitVec.allOnes 64
    addrVec := rankAddr c.channel.node.id (c.channel.child i).node.id
    arrive := c.clk }

theorem refreshTarget_fold {n : Nat}
    (h : (List.range n).foldlM (fun c' i => c'.refreshTarget (c.channel.child i).node.id) c =
      some c') : c' = { c with otherq := c.otherq ++ c.refreshes n } := by
  induction n generalizing c' with
  | zero =>
    obtain rfl := Option.some.inj h
    simp [refreshes]
  | succ n ih =>
    rw [List.range_succ, List.foldlM_append] at h
    obtain ⟨c₁, h₁, h₂⟩ := Option.bind_eq_some_iff.mp h
    obtain rfl := ih h₁
    obtain ⟨c₂, hlast, hnil⟩ := Option.bind_eq_some_iff.mp h₂
    obtain rfl := Option.some.inj hnil
    obtain ⟨-, rfl⟩ := enqueue_eq hlast
    simp [withQueue, queue, getQueue, refreshes, rankAddr, List.range_succ]

/-- A refresh is due. -/
def RefreshDue (spec : Spec) (c : Controller) : Prop :=
  spec.nREFI ≤ c.refresh.clk + 1 - c.refresh.refreshed

instance (spec : Spec) (c : Controller) : Decidable (RefreshDue spec c) :=
  inferInstanceAs (Decidable (_ ≤ _))

theorem tickRef_cases (h : c.tickRef spec = some c') : ∃ refresh,
    ¬ RefreshDue spec c ∧ c' = { c with refresh := refresh } ∨
    RefreshDue spec c ∧
      c' = { c with refresh := refresh, otherq := c.otherq ++ c.refreshes c.channel.size } := by
  unfold tickRef at h
  simp only at h
  split at h
  · rename_i hdue
    unfold injectRefresh at h
    obtain ⟨c₁, h₁, h₂⟩ := Option.bind_eq_some_iff.mp h
    obtain rfl := refreshTarget_fold h₁
    obtain rfl := Option.some.inj h₂
    exact ⟨_, .inr ⟨hdue, rfl⟩⟩
  · rename_i hdue
    obtain rfl := Option.some.inj h
    exact ⟨_, .inl ⟨hdue, rfl⟩⟩

theorem schedule_eq (c : Controller) : ∃ mode, c.schedule = { c with writeMode := mode } := by
  unfold schedule
  split
  · split
    · exact ⟨true, rfl⟩
    · exact ⟨c.writeMode, rfl⟩
  · split
    · exact ⟨false, rfl⟩
    · exact ⟨c.writeMode, rfl⟩

/-! ### The choice of a request -/

theorem compareBy_mem {preferred : Request → Option Bool} {a b r : ReqIter}
    (h : compareBy preferred a b = some r) : r = a ∨ r = b := by
  unfold compareBy at h
  obtain ⟨ready1, -, h⟩ := Option.bind_eq_some_iff.mp h
  obtain ⟨ready2, -, h⟩ := Option.bind_eq_some_iff.mp h
  split at h
  all_goals
    split at h
    · exact .inl (Option.some.inj h).symm
    · exact .inr (Option.some.inj h).symm

theorem foldlM_compare_mem {f : ReqIter → ReqIter → Option ReqIter}
    (hf : ∀ a b r, f a b = some r → r = a ∨ r = b) {l : List ReqIter} {front head : ReqIter}
    (h : l.foldlM f front = some head) : head ∈ front :: l := by
  induction l generalizing front with
  | nil =>
    obtain rfl := Option.some.inj h
    exact List.mem_singleton_self _
  | cons itr l ih =>
    rw [List.foldlM_cons] at h
    obtain ⟨next, hnext, hrest⟩ := Option.bind_eq_some_iff.mp h
    rcases List.mem_cons.mp (ih hrest) with rfl | hmem
    · rcases hf _ _ _ hnext with rfl | rfl
      · exact List.mem_cons_self
      · exact List.mem_cons_of_mem _ List.mem_cons_self
    · exact List.mem_cons_of_mem _ (List.mem_cons_of_mem _ hmem)

theorem tryNext_mem {hitReqs : List AddrVec} {head : Option ReqIter} {itr r : ReqIter}
    (h : c.tryNext spec hitReqs head itr = some (some r)) : head = some r ∨ r = itr := by
  unfold tryNext at h
  obtain ⟨violates, -, h⟩ := Option.bind_eq_some_iff.mp h
  split at h
  · exact .inl (Option.some.inj h)
  · split at h
    · exact .inr (Option.some.inj (Option.some.inj h)).symm
    · rename_i head
      obtain ⟨next, hnext, heq⟩ := Option.map_eq_some_iff.mp h
      obtain rfl := Option.some.inj heq
      rcases compareBy_mem hnext with rfl | rfl
      · exact .inl rfl
      · exact .inr rfl

theorem foldlM_tryNext_mem {hitReqs : List AddrVec} {l : List ReqIter} {head : Option ReqIter}
    {r : ReqIter} (h : l.foldlM (c.tryNext spec hitReqs) head = some (some r)) :
    head = some r ∨ r ∈ l := by
  induction l generalizing head with
  | nil => exact .inl (Option.some.inj h)
  | cons itr l ih =>
    rw [List.foldlM_cons] at h
    obtain ⟨next, hnext, hrest⟩ := Option.bind_eq_some_iff.mp h
    rcases ih hrest with rfl | hmem
    · rcases tryNext_mem hnext with hhead | rfl
      · exact .inl hhead
      · exact .inr List.mem_cons_self
    · exact .inr (List.mem_cons_of_mem _ hmem)

/-- The head of a queue is one of its requests. -/
theorem getHead_mem {q : List Request} {r : ReqIter} (h : c.getHead spec q = some (some r)) :
    q[r.1]? = some r.2 := by
  have hmem : r ∈ q.zipIdx.map fun p => (p.2, p.1) := by
    unfold getHead at h
    generalize q.zipIdx.map (fun p => (p.2, p.1)) = l at h
    cases l with
    | nil => cases h
    | cons front rest =>
      simp only at h
      obtain ⟨head, hhead, h⟩ := Option.bind_eq_some_iff.mp h
      have hheadMem := foldlM_compare_mem (fun _ _ _ => compareBy_mem) hhead
      split at h
      · obtain ⟨best, -, h⟩ := Option.bind_eq_some_iff.mp h
        split at h
        · obtain rfl := Option.some.inj (Option.some.inj h)
          exact hheadMem
        · unfold getHeadPriorHit at h
          obtain ⟨hits, -, h⟩ := Option.bind_eq_some_iff.mp h
          rcases foldlM_tryNext_mem h with hnone | hmem
          · cases hnone
          · exact hmem
      · obtain rfl := Option.some.inj (Option.some.inj h)
        exact hheadMem
  obtain ⟨p, hp, rfl⟩ := List.mem_map.mp hmem
  exact List.mk_mem_zipIdx_iff_getElem?.mp hp

theorem readyHead_eq {r : ReqIter} (h : c.readyHead spec name = some (some (r, cmd))) :
    (c.queue name)[r.1]? = some r.2 ∧ c.getFirstCmd spec r.2 = some cmd ∧
      c.isReadyCmd spec cmd r.2.addrVec = true := by
  unfold readyHead at h
  obtain ⟨head, hhead, h⟩ := Option.bind_eq_some_iff.mp h
  cases head with
  | none => cases h
  | some head =>
    simp only at h
    obtain ⟨first, hfirst, h⟩ := Option.bind_eq_some_iff.mp h
    split at h
    · rename_i hready
      obtain ⟨rfl, rfl⟩ := Prod.mk.inj (Option.some.inj (Option.some.inj h))
      exact ⟨getHead_mem hhead, hfirst, hready⟩
    · cases h

/-- A request that is chosen is in the queue, and ready with the command that it needs. -/
theorem choose_eq {r : ReqIter} (h : c.choose spec = some (some (name, r, cmd))) :
    (c.queue name)[r.1]? = some r.2 ∧ c.getFirstCmd spec r.2 = some cmd ∧
      c.isReadyCmd spec cmd r.2.addrVec = true := by
  unfold choose at h
  obtain ⟨first, hfirst, h⟩ := Option.bind_eq_some_iff.mp h
  cases first with
  | some found =>
    obtain ⟨rfl, rfl⟩ := Prod.mk.inj (Option.some.inj (Option.some.inj h))
    exact readyHead_eq hfirst
  | none =>
    simp only at h
    obtain ⟨second, hsecond, h⟩ := Option.bind_eq_some_iff.mp h
    obtain ⟨found, rfl, heq⟩ := Option.map_eq_some_iff.mp (Option.some.inj h)
    obtain ⟨rfl, rfl⟩ := Prod.mk.inj heq
    exact readyHead_eq hsecond

/-! ### The issue of a command -/

/-- The request after its first command. -/
def begun (req : Request) : Request := { req with isFirstCommand := false }

/-- What `update_serving_requests` makes of the channel at the first command of a request. -/
def Begins (c : Controller) (req : Request) (ch : DRAM) : Prop :=
  if req.isFirstCommand = true ∧ (req.type = .READ ∨ req.type = .WRITE) then
    c.channel.updateServingRequests req.addrVec 1 c.clk = some ch
  else ch = c.channel

theorem countRow_eq (h : c.countRow spec req = some c') :
    ∃ hits misses conflicts,
      c' = { c with rowHits := hits, rowMisses := misses, rowConflicts := conflicts } := by
  unfold countRow at h
  obtain ⟨hit, -, h⟩ := Option.bind_eq_some_iff.mp h
  split at h
  · obtain rfl := Option.some.inj h
    exact ⟨_, _, _, rfl⟩
  · obtain ⟨conflict, -, h⟩ := Option.bind_eq_some_iff.mp h
    split at h
    · obtain rfl := Option.some.inj h
      exact ⟨_, _, _, rfl⟩
    · obtain rfl := Option.some.inj h
      exact ⟨_, _, _, rfl⟩

theorem firstCommand_eq {r : ReqIter} (hr : (c.queue name)[r.1]? = some r.2)
    (h : c.firstCommand spec name r = some c') :
    ∃ ch hits misses conflicts, Begins c r.2 ch ∧
      c' = { c.withQueue name ((c.queue name).set r.1 (begun r.2)) with
        channel := ch, rowHits := hits, rowMisses := misses, rowConflicts := conflicts } := by
  unfold firstCommand at h
  unfold Begins
  by_cases hfirst : r.2.isFirstCommand = true
  · rw [if_pos hfirst] at h
    by_cases htype : r.2.type = .READ ∨ r.2.type = .WRITE
    · simp only [if_pos htype] at h
      obtain ⟨c₁, h₁, h₂⟩ := Option.bind_eq_some_iff.mp h
      obtain ⟨ch, hch, rfl⟩ := Option.map_eq_some_iff.mp h₁
      obtain ⟨hits, misses, conflicts, rfl⟩ := countRow_eq h₂
      refine ⟨ch, hits, misses, conflicts, ?_, rfl⟩
      rw [if_pos ⟨hfirst, htype⟩]
      simpa using hch
    · simp only [if_neg htype] at h
      obtain rfl := Option.some.inj h
      refine ⟨c.channel, c.rowHits, c.rowMisses, c.rowConflicts, ?_, ?_⟩
      · rw [if_neg fun h' => htype h'.2]
      · cases name <;> rfl
  · rw [if_neg hfirst] at h
    obtain rfl := Option.some.inj h
    refine ⟨c.channel, c.rowHits, c.rowMisses, c.rowConflicts, ?_, ?_⟩
    · rw [if_neg fun h' => hfirst h'.1]
    · have hsame : begun r.2 = r.2 := by
        unfold begun
        rw [Bool.not_eq_true] at hfirst
        rw [← hfirst]
      have hset : (c.queue name).set r.1 (begun r.2) = c.queue name := by
        obtain ⟨hlt, hget⟩ := List.getElem?_eq_some_iff.mp hr
        rw [hsame, ← hget, List.set_getElem_self]
      rw [hset]
      cases name <;> rfl

/-- `c₀` is the controller with the command issued, and the request still where it was. -/
def Issues (spec : Spec) (c : Controller) (req : Request) (cmd : Command) (c₀ : Controller) : Prop :=
  ∃ ch table hits misses conflicts, Begins c req ch ∧
    RowTable.update spec c.rowtable cmd req.addrVec c.clk = some table ∧
    c₀ = { c with
      channel := ch.update spec cmd req.addrVec c.clk, rowtable := table,
      rowHits := hits, rowMisses := misses, rowConflicts := conflicts }

/-- What becomes of the request after that. -/
inductive IssueCase (spec : Spec) (c c₀ : Controller) (name : QueueName) (r : ReqIter) (cmd : Command) :
    Controller → List Request → Prop
  | kept (ne : cmd ≠ spec.translate r.2.type) (opening : spec.isOpening cmd = false) :
      IssueCase spec c c₀ name r cmd (c₀.withQueue name ((c.queue name).set r.1 (begun r.2))) []
  | promoted (ne : cmd ≠ spec.translate r.2.type) (opening : spec.isOpening cmd = true)
      (other : name ≠ .actq) :
      IssueCase spec c c₀ name r cmd
        (({ c₀ with actq := c.actq ++ [begun r.2] } : Controller).withQueue name
          ((c.queue name).eraseIdx r.1)) []
  | rotated (ne : cmd ≠ spec.translate r.2.type) (opening : spec.isOpening cmd = true)
      (act : name = .actq) :
      IssueCase spec c c₀ name r cmd { c₀ with actq := c.actq.eraseIdx r.1 ++ [begun r.2] } []
  | read (eq : cmd = spec.translate r.2.type) (type : r.2.type = .READ) :
      IssueCase spec c c₀ name r cmd
        (({ c₀ with
          pending := c.pending ++ [{ begun r.2 with depart := c.clk + spec.readLatency }] } :
          Controller).withQueue name ((c.queue name).eraseIdx r.1)) []
  | written (eq : cmd = spec.translate r.2.type) (type : r.2.type = .WRITE ∨ r.2.type = .PIM_WRITE)
      {ch : DRAM} (serving : c₀.channel.updateServingRequests r.2.addrVec (-1) c.clk = some ch) :
      IssueCase spec c c₀ name r cmd
        (({ c₀ with channel := ch } : Controller).withQueue name ((c.queue name).eraseIdx r.1))
        [begun r.2]
  | other (eq : cmd = spec.translate r.2.type)
      (type : r.2.type ≠ .READ ∧ r.2.type ≠ .WRITE ∧ r.2.type ≠ .PIM_WRITE) :
      IssueCase spec c c₀ name r cmd (c₀.withQueue name ((c.queue name).eraseIdx r.1)) []

theorem eraseIdx_set {α : Type*} (l : List α) (i : Nat) (x : α) :
    (l.set i x).eraseIdx i = l.eraseIdx i := by
  induction l generalizing i with
  | nil => rfl
  | cons y l ih =>
    cases i with
    | zero => rfl
    | succ i => simp only [List.set_cons_succ, List.eraseIdx_cons_succ, ih]

@[simp] theorem withQueue_withQueue (q q' : List Request) :
    (c.withQueue name q).withQueue name q' = c.withQueue name q' := by
  cases name <;> rfl

theorem erase_withQueue (q : List Request) (i : Nat) :
    (c.withQueue name q).erase name i = c.withQueue name (q.eraseIdx i) := by
  unfold erase
  rw [queue_withQueue, withQueue_withQueue]

theorem promote_cases {c₀ : Controller} {r : ReqIter} (hr : (c.queue name)[r.1]? = some r.2)
    (hact : c₀.actq = c.actq) (hcmd : cmd ≠ spec.translate r.2.type) :
    IssueCase spec c c₀ name r cmd
      ((c₀.withQueue name ((c.queue name).set r.1 (begun r.2))).promote spec name (r.1, begun r.2) cmd)
      [] := by
  unfold promote
  by_cases hopening : spec.isOpening cmd = true
  · rw [if_pos hopening]
    by_cases hname : name = .actq
    · subst hname
      have hlt : r.1 < (c.actq.set r.1 (begun r.2)).length := by
        rw [List.length_set]
        exact (List.getElem?_eq_some_iff.mp hr).1
      have herase : (c.actq.set r.1 (begun r.2) ++ [begun r.2]).eraseIdx r.1 =
          c.actq.eraseIdx r.1 ++ [begun r.2] := by
        rw [List.eraseIdx_append_of_lt_length hlt, eraseIdx_set]
      have hcase := @IssueCase.rotated spec c c₀ .actq r cmd hcmd hopening rfl
      rw [← herase] at hcase
      exact hcase
    · have hcase := @IssueCase.promoted spec c c₀ name r cmd hcmd hopening hname
      rw [← eraseIdx_set _ _ (begun r.2), ← hact] at hcase
      cases name with
      | actq => exact absurd rfl hname
      | readq => exact hcase
      | writeq => exact hcase
      | otherq => exact hcase
  · rw [if_neg hopening]
    exact .kept hcmd (by simpa using hopening)

theorem finish_cases {c₀ : Controller} {r : ReqIter} {writes : List Request}
    (hpending : c₀.pending = c.pending) (hclk : c₀.clk = c.clk)
    (hcmd : cmd = spec.translate r.2.type)
    (h : (c₀.withQueue name ((c.queue name).set r.1 (begun r.2))).finish spec name (r.1, begun r.2) =
      some (c', writes)) :
    IssueCase spec c c₀ name r cmd c' writes := by
  unfold finish at h
  simp only at h
  by_cases hread : r.2.type = .READ
  · have hwrite : ¬ ((begun r.2).type = .WRITE ∨ (begun r.2).type = .PIM_WRITE) := by
      change ¬ (r.2.type = _ ∨ r.2.type = _)
      rw [hread]
      decide
    have hread' : (begun r.2).type = .READ := hread
    rw [if_pos hread', if_neg hwrite] at h
    obtain ⟨rfl, rfl⟩ := Prod.mk.inj (Option.some.inj h)
    have hcase := @IssueCase.read spec c c₀ name r cmd hcmd hread
    rw [← eraseIdx_set _ _ (begun r.2), ← hpending, ← hclk] at hcase
    cases name <;> exact hcase
  · have hread' : ¬ (begun r.2).type = .READ := hread
    rw [if_neg hread'] at h
    by_cases hwrite : r.2.type = .WRITE ∨ r.2.type = .PIM_WRITE
    · have hwrite' : (begun r.2).type = .WRITE ∨ (begun r.2).type = .PIM_WRITE := hwrite
      rw [if_pos hwrite'] at h
      obtain ⟨c₁, h₁, h⟩ := Option.bind_eq_some_iff.mp h
      obtain ⟨ch, hch, rfl⟩ := Option.map_eq_some_iff.mp h₁
      obtain ⟨rfl, rfl⟩ := Prod.mk.inj (Option.some.inj h)
      rw [withQueue_channel, withQueue_clk, hclk] at hch
      have hcase := @IssueCase.written spec c c₀ name r cmd hcmd hwrite _ hch
      rw [← eraseIdx_set _ _ (begun r.2)] at hcase
      cases name <;> exact hcase
    · have hwrite' : ¬ ((begun r.2).type = .WRITE ∨ (begun r.2).type = .PIM_WRITE) := hwrite
      rw [if_neg hwrite'] at h
      obtain ⟨rfl, rfl⟩ := Prod.mk.inj (Option.some.inj h)
      rw [erase_withQueue, eraseIdx_set]
      exact .other hcmd ⟨hread, fun h => hwrite (.inl h), fun h => hwrite (.inr h)⟩

theorem issue_cases {r : ReqIter} {writes : List Request} (hr : (c.queue name)[r.1]? = some r.2)
    (h : c.issue spec name r cmd = some (c', writes)) :
    ∃ c₀, Issues spec c r.2 cmd c₀ ∧ IssueCase spec c c₀ name r cmd c' writes := by
  unfold issue at h
  obtain ⟨c₁, h₁, h⟩ := Option.bind_eq_some_iff.mp h
  obtain ⟨ch, hits, misses, conflicts, hbegins, rfl⟩ := firstCommand_eq hr h₁
  simp only at h
  obtain ⟨c₂, h₂, h⟩ := Option.bind_eq_some_iff.mp h
  unfold issueCmd at h₂
  split at h₂
  · obtain ⟨table, htable, h₂⟩ := Option.bind_eq_some_iff.mp h₂
    obtain rfl := Option.some.inj h₂
    simp only [withQueue_rowtable, withQueue_clk] at htable
    let c₀ : Controller := { c with
      channel := ch.update spec cmd r.2.addrVec c.clk, rowtable := table,
      rowHits := hits, rowMisses := misses, rowConflicts := conflicts }
    refine ⟨c₀, ⟨ch, table, hits, misses, conflicts, hbegins, htable, rfl⟩, ?_⟩
    have hc₀ : ({ { c.withQueue name ((c.queue name).set r.1 (begun r.2)) with
        channel := ch, rowHits := hits, rowMisses := misses, rowConflicts := conflicts } with
        channel := ch.update spec cmd r.2.addrVec
          (c.withQueue name ((c.queue name).set r.1 (begun r.2))).clk,
        rowtable := table } : Controller) = c₀.withQueue name ((c.queue name).set r.1 (begun r.2)) := by
      cases name <;> rfl
    by_cases hcmd : cmd = spec.translate r.2.type
    · rw [if_neg (not_not.mpr hcmd)] at h
      exact finish_cases rfl rfl hcmd (hc₀ ▸ h)
    · rw [if_pos hcmd] at h
      obtain ⟨rfl, rfl⟩ := Prod.mk.inj (Option.some.inj h)
      have hcase : IssueCase spec c c₀ name r cmd _ [] := promote_cases hr rfl hcmd
      rw [← hc₀] at hcase
      exact hcase
  · cases h₂

/-! ### All of `tick` -/

/-- The parts of a call of `tick`: `c₁` after the reads, `c₂` after the refreshes and the mode. -/
theorem tick_cases {out : Outcome} (h : c.tick spec = some (c', out)) :
    ∃ c₁ reads c₂, serve { c with clk := c.clk + 1 } = some (c₁, reads) ∧
      c₁.tickRef spec = some c₂ ∧
      (c₂.schedule.choose spec = some none ∧ c' = c₂.schedule ∧ out = { served := reads } ∨
      ∃ name r cmd writes, c₂.schedule.choose spec = some (some (name, r, cmd)) ∧
        c₂.schedule.issue spec name r cmd = some (c', writes) ∧
        out = { served := reads ++ writes, issue := some (cmd, r.2.addrVec) }) := by
  unfold tick at h
  obtain ⟨⟨c₁, reads⟩, h₁, h⟩ := Option.bind_eq_some_iff.mp h
  obtain ⟨c₂, h₂, h⟩ := Option.bind_eq_some_iff.mp h
  obtain ⟨choice, hchoice, h⟩ := Option.bind_eq_some_iff.mp h
  refine ⟨c₁, reads, c₂, h₁, h₂, ?_⟩
  cases choice with
  | none =>
    obtain ⟨rfl, rfl⟩ := Prod.mk.inj (Option.some.inj h)
    exact .inl ⟨hchoice, rfl, rfl⟩
  | some choice =>
    obtain ⟨name, r, cmd⟩ := choice
    obtain ⟨⟨c₃, writes⟩, h₃, h⟩ := Option.bind_eq_some_iff.mp h
    obtain ⟨rfl, rfl⟩ := Prod.mk.inj (Option.some.inj h)
    exact .inr ⟨name, r, cmd, writes, hchoice, h₃, rfl⟩

end Controller

end OnnxSim.Ram
