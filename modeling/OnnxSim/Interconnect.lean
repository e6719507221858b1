import OnnxSim.Dram
import OnnxSim.Lib.Machine
import OnnxSim.Lib.Queues
import OnnxSim.Lib.Fifo

/-!
# The simple interconnect

`SimpleInterconnect` (`Interconnect.cc`): a queue for each pair of nodes and a queue of arrivals at
each node. A call of `cycle` moves at most one access to each destination, from the first source at
or after the destination's round-robin pointer whose head is ready.

Pushing to and popping from nodes that do not exist, and popping or reading an empty queue, is
undefined in the source; no step of the model does it.
-/

namespace OnnxSim

open Queues

/-- `SimpleInterconnect::Entity`. -/
structure Entity where
  finishCycle : Nat
  dest : Nat
  access : MemoryAccess
  deriving Repr, DecidableEq

structure SimpleInterconnect where
  nNodes : Nat
  latency : Nat
  cycles : Nat := 0
  inBuffers : Nat → Nat → List Entity := fun _ _ => []
  outBuffers : Nat → List MemoryAccess := fun _ => []
  rrNextSrc : Nat → Nat := fun _ => 0

/-- `_n_nodes`: the ports of the cores, then the memory channels. -/
def SimulationConfig.nNodes (config : SimulationConfig) : Nat :=
  config.numCores * config.icntInjectionPortsPerCore + config.dramChannels

namespace SimpleInterconnect

variable {icnt icnt' : SimpleInterconnect} {src dest nid : Nat} {access : MemoryAccess}

/-! ## The operations -/

/-- The `entity` of a call of `push`. -/
def entity (icnt : SimpleInterconnect) (src dest : Nat) (access : MemoryAccess) : Entity where
  finishCycle :=
    match (icnt.inBuffers src dest).getLast? with
    | none => icnt.cycles + icnt.latency
    | some back => back.finishCycle + 1
  dest
  access

def push (icnt : SimpleInterconnect) (src dest : Nat) (access : MemoryAccess) :
    SimpleInterconnect :=
  { icnt with
    inBuffers := setAt icnt.inBuffers src dest
      (icnt.inBuffers src dest ++ [icnt.entity src dest access]) }

/-- `!_in_buffers[src][dest].empty() && _in_buffers[src][dest].front().finish_cycle <= _cycles`. -/
def ready (icnt : SimpleInterconnect) (dest src : Nat) : Bool :=
  match icnt.inBuffers src dest with
  | [] => false
  | front :: _ => front.finishCycle ≤ icnt.cycles

/-- The source the inner loop of `cycle` stops at. -/
def winner (icnt : SimpleInterconnect) (dest : Nat) : Option Nat :=
  ((List.range icnt.nNodes).map fun i => (icnt.rrNextSrc dest + i) % icnt.nNodes).find?
    (icnt.ready dest)

/-- The body of the outer loop of `cycle`. -/
def deliver (icnt : SimpleInterconnect) (dest : Nat) : SimpleInterconnect :=
  match icnt.winner dest with
  | none => icnt
  | some src =>
    match icnt.inBuffers src dest with
    | [] => icnt
    | front :: rest =>
      { icnt with
        outBuffers := Function.update icnt.outBuffers dest (icnt.outBuffers dest ++ [front.access])
        inBuffers := setAt icnt.inBuffers src dest rest
        rrNextSrc := Function.update icnt.rrNextSrc dest ((src + 1) % icnt.nNodes) }

def cycle (icnt : SimpleInterconnect) : SimpleInterconnect :=
  let icnt := (List.range icnt.nNodes).foldl deliver icnt
  { icnt with cycles := icnt.cycles + 1 }

def isFull (_ : SimpleInterconnect) (_ : Nat) (_ : MemoryAccess) : Bool := false

def isEmpty (icnt : SimpleInterconnect) (nid : Nat) : Bool := (icnt.outBuffers nid).isEmpty

def top (icnt : SimpleInterconnect) (nid : Nat) : Option MemoryAccess := (icnt.outBuffers nid).head?

def pop (icnt : SimpleInterconnect) (nid : Nat) : Option SimpleInterconnect :=
  match icnt.outBuffers nid with
  | [] => none
  | _ :: rest => some { icnt with outBuffers := Function.update icnt.outBuffers nid rest }

/-! ## Runs -/

inductive Act
  | push (src dest : Nat) (access : MemoryAccess)
  | cycle
  | top (nid : Nat)
  | pop (nid : Nat)
  deriving DecidableEq

def step (icnt : SimpleInterconnect) : Act → Option SimpleInterconnect
  | .push src dest access =>
    if src < icnt.nNodes ∧ dest < icnt.nNodes then some (icnt.push src dest access) else none
  | .cycle => some icnt.cycle
  | .top nid => if nid < icnt.nNodes then (icnt.top nid).map fun _ => icnt else none
  | .pop nid => if nid < icnt.nNodes then icnt.pop nid else none

/-- The constructor. -/
def init (nNodes latency : Nat) : SimpleInterconnect := { nNodes, latency }

abbrev Run (nNodes latency : Nat) :=
  Machine.Run (Machine.partialDet step) (init nNodes latency)

/-! ## Arbitration -/

theorem ready_iff :
    icnt.ready dest src = true ↔ ∃ front rest, icnt.inBuffers src dest = front :: rest ∧
      front.finishCycle ≤ icnt.cycles := by
  unfold ready
  split
  · next hnil => simp [hnil]
  · next front rest hcons => simp [hcons]

/-- The rotation visits every node once. -/
theorem winner_isSome_iff :
    (icnt.winner dest).isSome ↔ ∃ src < icnt.nNodes, icnt.ready dest src = true := by
  unfold winner
  rw [List.find?_isSome]
  constructor
  · rintro ⟨src, hsrc, hready⟩
    obtain ⟨i, hi, rfl⟩ := List.mem_map.mp hsrc
    have hpos : 0 < icnt.nNodes := by
      have := List.mem_range.mp hi
      omega
    exact ⟨_, Nat.mod_lt _ hpos, hready⟩
  · rintro ⟨src, hsrc, hready⟩
    refine ⟨src, List.mem_map.mpr ?_, hready⟩
    -- the offset that leads from the pointer to `src`
    refine ⟨(src + (icnt.nNodes - icnt.rrNextSrc dest % icnt.nNodes)) % icnt.nNodes,
      List.mem_range.mpr (Nat.mod_lt _ (by omega)), ?_⟩
    have hlt : icnt.rrNextSrc dest % icnt.nNodes < icnt.nNodes := Nat.mod_lt _ (by omega)
    rw [Nat.add_mod, Nat.mod_mod, ← Nat.add_mod_mod, Nat.mod_mod, Nat.add_mod_mod]
    have hsum : icnt.rrNextSrc dest % icnt.nNodes +
        (src + (icnt.nNodes - icnt.rrNextSrc dest % icnt.nNodes)) = src + icnt.nNodes := by
      omega
    rw [hsum, Nat.add_mod_right, Nat.mod_eq_of_lt hsrc]

theorem winner_eq_some (h : icnt.winner dest = some src) :
    src < icnt.nNodes ∧ ∃ front rest, icnt.inBuffers src dest = front :: rest ∧
      front.finishCycle ≤ icnt.cycles := by
  unfold winner at h
  have hready : icnt.ready dest src = true := List.find?_some h
  obtain ⟨i, hi, rfl⟩ := List.mem_map.mp (List.mem_of_find?_eq_some h)
  have hpos : 0 < icnt.nNodes := by
    have := List.mem_range.mp hi
    omega
  exact ⟨Nat.mod_lt _ hpos, ready_iff.mp hready⟩

/-- What the arbitration for `dest` hands over. -/
def granted (icnt : SimpleInterconnect) (dest : Nat) : Option (Nat × Entity) :=
  (icnt.winner dest).bind fun src => (icnt.inBuffers src dest).head?.map (src, ·)

/-- The arbitration for `dest` looks at nothing but the queues to `dest` and its pointer. -/
theorem winner_congr (hn : icnt'.nNodes = icnt.nNodes) (hc : icnt'.cycles = icnt.cycles)
    (hin : ∀ src, icnt'.inBuffers src dest = icnt.inBuffers src dest)
    (hrr : icnt'.rrNextSrc dest = icnt.rrNextSrc dest) : icnt'.winner dest = icnt.winner dest := by
  have hready : icnt'.ready dest = icnt.ready dest := by
    funext src
    simp only [ready, hin, hc]
  simp only [winner, hn, hrr, hready]

/-- What one iteration of the outer loop does. -/
theorem deliver_cases (icnt : SimpleInterconnect) (dest : Nat) :
    icnt.winner dest = none ∧ icnt.granted dest = none ∧ icnt.deliver dest = icnt ∨
    ∃ src front rest, src < icnt.nNodes ∧ icnt.winner dest = some src ∧
      icnt.inBuffers src dest = front :: rest ∧ front.finishCycle ≤ icnt.cycles ∧
      icnt.granted dest = some (src, front) ∧
      icnt.deliver dest = { icnt with
        outBuffers := Function.update icnt.outBuffers dest (icnt.outBuffers dest ++ [front.access])
        inBuffers := setAt icnt.inBuffers src dest rest
        rrNextSrc := Function.update icnt.rrNextSrc dest ((src + 1) % icnt.nNodes) } := by
  cases hwin : icnt.winner dest with
  | none => exact .inl ⟨rfl, by simp [granted, hwin], by simp [deliver, hwin]⟩
  | some src =>
    obtain ⟨hsrc, front, rest, hcons, hready⟩ := winner_eq_some hwin
    refine .inr ⟨src, front, rest, hsrc, rfl, hcons, hready, ?_, ?_⟩
    · simp [granted, hwin, hcons]
    · simp [deliver, hwin, hcons]

/-- The iterations for the destinations below `k` and nothing else have been done since `icnt`. -/
structure Served (icnt icnt' : SimpleInterconnect) (k : Nat) : Prop where
  nNodes : icnt'.nNodes = icnt.nNodes
  latency : icnt'.latency = icnt.latency
  cycles : icnt'.cycles = icnt.cycles
  inBuffers : ∀ src dest, dest < k → icnt'.inBuffers src dest =
    if icnt.winner dest = some src then (icnt.inBuffers src dest).tail
    else icnt.inBuffers src dest
  outBuffers : ∀ dest, dest < k → icnt'.outBuffers dest =
    icnt.outBuffers dest ++ ((icnt.granted dest).map (·.2.access)).toList
  rest : ∀ dest, k ≤ dest → icnt'.outBuffers dest = icnt.outBuffers dest ∧
    icnt'.rrNextSrc dest = icnt.rrNextSrc dest ∧
    ∀ src, icnt'.inBuffers src dest = icnt.inBuffers src dest

theorem Served.refl (icnt : SimpleInterconnect) : Served icnt icnt 0 :=
  ⟨rfl, rfl, rfl, nofun, nofun, fun _ _ => ⟨rfl, rfl, fun _ => rfl⟩⟩

/-- One more iteration. -/
theorem Served.deliver {k : Nat} (h : Served icnt icnt' k) :
    Served icnt (icnt'.deliver k) (k + 1) := by
  obtain ⟨hout, hrr, hin⟩ := h.rest k (Nat.le_refl k)
  have hwin : icnt'.winner k = icnt.winner k := winner_congr h.nNodes h.cycles hin hrr
  rcases deliver_cases icnt' k with
    ⟨hnone, -, heq⟩ | ⟨src, front, rest, -, hsome, hcons, -, -, heq⟩
  · rw [hwin] at hnone
    rw [heq]
    refine ⟨h.nNodes, h.latency, h.cycles, fun s d hd => ?_, fun d hd => ?_,
      fun d hd => h.rest d (Nat.le_of_succ_le hd)⟩
    · rcases Nat.lt_succ_iff_lt_or_eq.mp hd with hd | rfl
      · exact h.inBuffers s d hd
      · rw [hin, hnone, if_neg nofun]
    · rcases Nat.lt_succ_iff_lt_or_eq.mp hd with hd | rfl
      · exact h.outBuffers d hd
      · simp [hout, granted, hnone]
  · rw [hwin] at hsome
    rw [hin] at hcons
    rw [heq]
    refine ⟨h.nNodes, h.latency, h.cycles, fun s d hd => ?_, fun d hd => ?_, fun d hd => ?_⟩
    · by_cases hd' : d = k
      · subst hd'
        by_cases hs : s = src
        · subst hs
          rw [if_pos hsome, hcons]
          exact setAt_self rest
        · rw [if_neg (by simpa [hsome] using Ne.symm hs), ← hin s]
          exact setAt_of_ne (.inl hs) rest
      · rw [← h.inBuffers s d (by omega)]
        exact setAt_of_ne (.inr hd') rest
    · by_cases hd' : d = k
      · subst hd'
        simp [hout, granted, hsome, hcons]
      · rw [← h.outBuffers d (by omega)]
        exact Function.update_of_ne hd' _ _
    · have hd' : d ≠ k := by omega
      obtain ⟨ho, hr, hi⟩ := h.rest d (Nat.le_of_succ_le hd)
      refine ⟨?_, ?_, fun s => ?_⟩
      · rw [← ho]
        exact Function.update_of_ne hd' _ _
      · rw [← hr]
        exact Function.update_of_ne hd' _ _
      · rw [← hi s]
        exact setAt_of_ne (.inr hd') rest

theorem served_foldl (icnt : SimpleInterconnect) (k : Nat) :
    Served icnt ((List.range k).foldl SimpleInterconnect.deliver icnt) k := by
  induction k with
  | zero => exact Served.refl icnt
  | succ k ih =>
    rw [List.range_succ, List.foldl_append]
    exact ih.deliver

/-! ## One call of `cycle` -/

@[simp] theorem cycle_nNodes (icnt : SimpleInterconnect) : icnt.cycle.nNodes = icnt.nNodes :=
  (served_foldl icnt icnt.nNodes).nNodes

@[simp] theorem cycle_latency (icnt : SimpleInterconnect) : icnt.cycle.latency = icnt.latency :=
  (served_foldl icnt icnt.nNodes).latency

@[simp] theorem cycle_cycles (icnt : SimpleInterconnect) :
    icnt.cycle.cycles = icnt.cycles + 1 := by
  have hcycles := (served_foldl icnt icnt.nNodes).cycles
  simpa [cycle] using hcycles

theorem cycle_inBuffers (h : dest < icnt.nNodes) (src : Nat) :
    icnt.cycle.inBuffers src dest =
      if icnt.winner dest = some src then (icnt.inBuffers src dest).tail
      else icnt.inBuffers src dest :=
  (served_foldl icnt icnt.nNodes).inBuffers src dest h

/-- What a call of `cycle` delivers to `dest`. -/
theorem cycle_outBuffers (h : dest < icnt.nNodes) :
    icnt.cycle.outBuffers dest =
      icnt.outBuffers dest ++ ((icnt.granted dest).map (·.2.access)).toList :=
  (served_foldl icnt icnt.nNodes).outBuffers dest h

theorem granted_eq_some {e : Entity} (h : icnt.granted dest = some (src, e)) :
    icnt.winner dest = some src ∧ src < icnt.nNodes ∧
      ∃ rest, icnt.inBuffers src dest = e :: rest ∧ e.finishCycle ≤ icnt.cycles := by
  rcases deliver_cases icnt dest with
    ⟨-, hnone, -⟩ | ⟨src', front, rest, hsrc, hwin, hcons, hready, hgranted, -⟩
  · rw [hnone] at h
    cases h
  · obtain ⟨rfl, rfl⟩ := Prod.mk.inj (Option.some.inj (hgranted.symm.trans h))
    exact ⟨hwin, hsrc, rest, hcons, hready⟩

theorem granted_isSome_iff :
    (icnt.granted dest).isSome ↔ ∃ src < icnt.nNodes, ∃ front rest,
      icnt.inBuffers src dest = front :: rest ∧ front.finishCycle ≤ icnt.cycles := by
  have hiff : (icnt.granted dest).isSome ↔ (icnt.winner dest).isSome := by
    rcases deliver_cases icnt dest with ⟨hwin, hgranted, -⟩ | ⟨src, front, -, -, hwin, -, -, hg, -⟩
    · rw [hwin, hgranted]
      simp
    · rw [hwin, hg]
      simp
  rw [hiff, winner_isSome_iff]
  simp only [ready_iff]

/-! ## What the interconnect holds -/

/-- The accesses in the in-buffers and the out-buffers. -/
def held (icnt : SimpleInterconnect) : List MemoryAccess :=
  (grid icnt.nNodes icnt.nNodes icnt.inBuffers).map (·.access) ++ pool icnt.nNodes icnt.outBuffers

theorem push_held (hsrc : src < icnt.nNodes) (hdest : dest < icnt.nNodes) :
    (icnt.push src dest access).held.Perm (access :: icnt.held) :=
  ((grid_push hsrc hdest).map _).append_right _

theorem deliver_held (hdest : dest < icnt.nNodes) :
    (icnt.deliver dest).held.Perm icnt.held := by
  rcases deliver_cases icnt dest with
    ⟨-, -, heq⟩ | ⟨src, front, rest, hsrc, -, hcons, -, -, heq⟩
  · rw [heq]
  · have hin := (grid_remove (g := icnt.inBuffers) (l := rest) (x := front) hsrc hdest
      (by rw [hcons])).map (·.access)
    have hout := pool_push (q := icnt.outBuffers) (x := front.access) hdest
    rw [heq]
    exact ((hout.append_left _).trans List.perm_middle).trans (hin.symm.append_right _)

/-- A call of `cycle` neither loses nor duplicates. -/
theorem cycle_held (icnt : SimpleInterconnect) : icnt.cycle.held.Perm icnt.held := by
  have hfold : ∀ k ≤ icnt.nNodes,
      ((List.range k).foldl deliver icnt).held.Perm icnt.held := by
    intro k
    induction k with
    | zero => exact fun _ => .refl _
    | succ k ih =>
      intro hk
      rw [List.range_succ, List.foldl_append]
      refine (deliver_held ?_).trans (ih (Nat.le_of_succ_le hk))
      rw [(served_foldl icnt k).nNodes]
      omega
  exact hfold icnt.nNodes (Nat.le_refl _)

/-- Everything on the way to `dest` and everything that has arrived there satisfies `P dest`. -/
structure Carries (P : Nat → MemoryAccess → Prop) (icnt : SimpleInterconnect) : Prop where
  inBuffers : ∀ src dest, ∀ e ∈ icnt.inBuffers src dest, P dest e.access
  outBuffers : ∀ dest, ∀ m ∈ icnt.outBuffers dest, P dest m

section Carries

variable {P : Nat → MemoryAccess → Prop}

theorem Carries.push (h : Carries P icnt) (hP : P dest access) :
    Carries P (icnt.push src dest access) := by
  refine ⟨fun s d e he => ?_, h.outBuffers⟩
  by_cases hpair : s = src ∧ d = dest
  · obtain ⟨rfl, rfl⟩ := hpair
    have hin : (icnt.push s d access).inBuffers s d =
        icnt.inBuffers s d ++ [icnt.entity s d access] := setAt_self _
    rw [hin, List.mem_append, List.mem_singleton] at he
    rcases he with he | rfl
    · exact h.inBuffers s d e he
    · exact hP
  · have hin : (icnt.push src dest access).inBuffers s d = icnt.inBuffers s d :=
      setAt_of_ne (by tauto) _
    exact h.inBuffers s d e (hin ▸ he)

theorem Carries.deliver (h : Carries P icnt) : Carries P (icnt.deliver dest) := by
  rcases deliver_cases icnt dest with
    ⟨-, -, heq⟩ | ⟨src, front, rest, -, -, hcons, -, -, heq⟩
  · rwa [heq]
  · have hfront : P dest front.access :=
      h.inBuffers src dest front (hcons ▸ List.mem_cons_self)
    rw [heq]
    refine ⟨fun s d e he => ?_, fun d m hm => ?_⟩
    · by_cases hpair : s = src ∧ d = dest
      · obtain ⟨rfl, rfl⟩ := hpair
        simp only [setAt_self] at he
        exact h.inBuffers s d e (hcons ▸ List.mem_cons_of_mem _ he)
      · simp only [setAt_of_ne (show s ≠ src ∨ d ≠ dest by tauto)] at he
        exact h.inBuffers s d e he
    · by_cases hd : d = dest
      · subst hd
        simp only [Function.update_self, List.mem_append, List.mem_singleton] at hm
        rcases hm with hm | rfl
        · exact h.outBuffers d m hm
        · exact hfront
      · simp only [Function.update_of_ne hd] at hm
        exact h.outBuffers d m hm

theorem Carries.cycle (h : Carries P icnt) : Carries P icnt.cycle := by
  have hfold : ∀ (l : List Nat) (icnt : SimpleInterconnect), Carries P icnt →
      Carries P (l.foldl SimpleInterconnect.deliver icnt) := by
    intro l
    induction l with
    | nil => exact fun _ h => h
    | cons d l ih => exact fun _ h => ih _ h.deliver
  have hall := hfold (List.range icnt.nNodes) icnt h
  exact ⟨hall.inBuffers, hall.outBuffers⟩

end Carries

theorem pop_eq_some (h : icnt.pop nid = some icnt') : ∃ access rest,
    icnt.outBuffers nid = access :: rest ∧
      icnt' = { icnt with outBuffers := Function.update icnt.outBuffers nid rest } := by
  unfold pop at h
  split at h
  · cases h
  · next access rest hcons => exact ⟨access, rest, hcons, (Option.some.inj h).symm⟩

theorem pop_nNodes (h : icnt.pop nid = some icnt') : icnt'.nNodes = icnt.nNodes := by
  obtain ⟨access, rest, -, rfl⟩ := pop_eq_some h
  rfl

theorem Carries.pop {P : Nat → MemoryAccess → Prop} (h : Carries P icnt)
    (hpop : icnt.pop nid = some icnt') : Carries P icnt' := by
  obtain ⟨access, rest, hcons, rfl⟩ := pop_eq_some hpop
  refine ⟨h.inBuffers, fun d m hm => ?_⟩
  by_cases hd : d = nid
  · subst hd
    simp only [Function.update_self] at hm
    exact h.outBuffers d m (hcons ▸ List.mem_cons_of_mem _ hm)
  · simp only [Function.update_of_ne hd] at hm
    exact h.outBuffers d m hm

theorem pop_held (hnid : nid < icnt.nNodes) (h : icnt.pop nid = some icnt') :
    ∃ access, icnt.top nid = some access ∧ icnt.held.Perm (access :: icnt'.held) := by
  obtain ⟨access, rest, hcons, rfl⟩ := pop_eq_some h
  refine ⟨access, by simp [top, hcons], ?_⟩
  have hout := pool_remove (q := icnt.outBuffers) (l := rest) (x := access) hnid (by rw [hcons])
  exact (hout.append_left _).trans List.perm_middle

end SimpleInterconnect

end OnnxSim
