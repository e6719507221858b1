import OnnxSim.Interconnect.Run
import OnnxSim.Lib.RoundRobin

/-!
# Nothing starves in the simple interconnect

The ready times of a pair of nodes follow one another by one cycle, the first is at most the latency away,
and the pointer of a destination comes closer to a source that is ready and is not served. So an access
with `k` others of its pair before it is delivered within `latency + (k + 1) * n` calls of `cycle`,
whatever is pushed meanwhile (`delivered_within`).
-/

namespace OnnxSim

open Queues

namespace SimpleInterconnect

variable {n latency : Nat} {t u : SimpleInterconnect} {h : List (SimpleInterconnect × Act)}
  {src dest : Nat}

/-! ## Ready times -/

/-- The ready times of a pair follow one another, and the first is at most the latency away. -/
structure Paced (t : SimpleInterconnect) (src dest : Nat) : Prop where
  chain : (t.inBuffers src dest).IsChain fun e e' => e'.finishCycle = e.finishCycle + 1
  head : ∀ e ∈ (t.inBuffers src dest).head?, e.finishCycle ≤ t.cycles + t.latency

theorem Paced.congr (h : Paced t src dest) (hin : u.inBuffers src dest = t.inBuffers src dest)
    (hcycles : t.cycles ≤ u.cycles) (hlatency : u.latency = t.latency) : Paced u src dest := by
  refine ⟨hin ▸ h.chain, fun e he => ?_⟩
  have hle := h.head e (hin ▸ he)
  omega

theorem Paced.push {access : MemoryAccess} (h : Paced t src dest) (s d : Nat) :
    Paced (t.push s d access) src dest := by
  by_cases hpair : s = src ∧ d = dest
  · obtain ⟨rfl, rfl⟩ := hpair
    have hin : (t.push s d access).inBuffers s d = t.inBuffers s d ++ [t.entity s d access] :=
      setAt_self _
    constructor
    · rw [hin]
      refine List.isChain_append.mpr ⟨h.chain, List.isChain_singleton _, fun back hback e he => ?_⟩
      obtain rfl : t.entity s d access = e := by simpa using he
      have hlast : (t.inBuffers s d).getLast? = some back := hback
      simp [entity, hlast]
    · rw [hin]
      intro e he
      cases hq : t.inBuffers s d with
      | nil =>
        rw [hq] at he
        obtain rfl : t.entity s d access = e := by simpa using he
        simp [entity, hq, SimpleInterconnect.push]
      | cons front rest =>
        rw [hq] at he
        exact h.head e (by rw [hq]; simpa using he)
  · have hin : (t.push s d access).inBuffers src dest = t.inBuffers src dest :=
      setAt_of_ne (by tauto) _
    exact h.congr hin le_rfl rfl

theorem Paced.cycle (h : Paced t src dest) (hdest : dest < t.nNodes) : Paced t.cycle src dest := by
  have hin := cycle_inBuffers hdest src
  split at hin
  · rename_i hwin
    obtain ⟨-, front, rest, hcons, hle⟩ := winner_eq_some hwin
    rw [hcons, List.tail_cons] at hin
    have hchain := h.chain
    rw [hcons] at hchain
    refine ⟨hin ▸ hchain.tail, fun e he => ?_⟩
    rw [hin] at he
    cases rest with
    | nil => cases he
    | cons e' rest =>
      obtain rfl : e' = e := by simpa using he
      have hnext : e'.finishCycle = front.finishCycle + 1 := (List.isChain_cons_cons.mp hchain).1
      rw [cycle_cycles]
      omega
  · exact h.congr hin (by simp) (by simp)

theorem Run.paced (run : Run n latency h t) (src : Nat) (hdest : dest < n) : Paced t src dest := by
  induction run with
  | nil => exact ⟨List.isChain_nil, fun e he => nomatch he⟩
  | @snoc h t a u run hs ih =>
    have hn := (Run.fixed run).1
    rcases step_cases hs with ⟨s, d, access, rfl, -, -, rfl⟩ | ⟨rfl, rfl⟩ | ⟨nid, rfl, rfl⟩ |
      ⟨nid, access, rest, rfl, -, -, rfl⟩
    · exact ih.push s d
    · exact ih.cycle (by omega)
    · exact ih
    · exact ih.congr rfl le_rfl rfl

/-! ## Waiting -/

/-- How many calls of `cycle` the `k`-th access of a pair may still have to wait for. -/
def patience (t : SimpleInterconnect) (src dest k : Nat) : Nat :=
  match t.inBuffers src dest with
  | [] => 0
  | front :: _ =>
    if front.finishCycle ≤ t.cycles then
      k * t.nNodes + RoundRobin.distance t.nNodes (t.rrNextSrc dest) src + 1
    else front.finishCycle - t.cycles + (k + 1) * t.nNodes

theorem winner_eq_pick (t : SimpleInterconnect) (dest : Nat) :
    t.winner dest = RoundRobin.pick t.nNodes (t.ready dest) (t.rrNextSrc dest) := rfl

/-- At first it is the latency and one round for each access of the pair up to it. -/
theorem Paced.patience_le (h : Paced t src dest) (hsrc : src < t.nNodes) (k : Nat) :
    t.patience src dest k ≤ t.latency + (k + 1) * t.nNodes := by
  unfold patience
  split
  · exact Nat.zero_le _
  · rename_i front rest hcons
    have hhead := h.head front (by simp [hcons])
    have hdist := RoundRobin.distance_lt (show 0 < t.nNodes by omega) (t.rrNextSrc dest) src
    rw [Nat.succ_mul]
    split <;> omega

/-- The pointer after a call of `cycle`. -/
theorem cycle_rrNextSrc (hdest : dest < t.nNodes) : t.cycle.rrNextSrc dest =
    match t.winner dest with
    | none => t.rrNextSrc dest
    | some w => (w + 1) % t.nNodes := by
  have hfold : ∀ k ≤ t.nNodes, ((List.range k).foldl deliver t).rrNextSrc dest =
      if dest < k then
        match t.winner dest with
        | none => t.rrNextSrc dest
        | some w => (w + 1) % t.nNodes
      else t.rrNextSrc dest := by
    intro k
    induction k with
    | zero => exact fun _ => rfl
    | succ k ih =>
      intro hk
      have hserved := served_foldl t k
      rw [List.range_succ, List.foldl_append]
      generalize (List.range k).foldl deliver t = v at ih hserved
      have hv := ih (by omega)
      have hn := hserved.nNodes
      rcases deliver_cases v k with ⟨hnone, -, heq⟩ | ⟨w, front, rest, -, hwin, -, -, -, heq⟩
      · rw [List.foldl_cons, List.foldl_nil, heq, hv]
        by_cases hd : dest = k
        · subst hd
          obtain ⟨hout, hrr, hin⟩ := hserved.rest dest le_rfl
          rw [winner_congr hn hserved.cycles hin hrr] at hnone
          simp [hnone]
        · have hiff : dest < k ↔ dest < k + 1 := by omega
          simp only [hiff]
      · rw [List.foldl_cons, List.foldl_nil, heq]
        by_cases hd : dest = k
        · subst hd
          obtain ⟨hout, hrr, hin⟩ := hserved.rest dest le_rfl
          rw [winner_congr hn hserved.cycles hin hrr] at hwin
          simp [hwin, hn]
        · have hiff : dest < k ↔ dest < k + 1 := by omega
          simp only [Function.update_of_ne hd, hv, hiff]
  have hall := hfold t.nNodes le_rfl
  rw [if_pos hdest] at hall
  exact hall

/-- A call of `cycle` that does not deliver from the pair shortens the wait. -/
theorem patience_cycle_of_ne (hsrc : src < t.nNodes)
    (hdest : dest < t.nNodes) (hwin : t.winner dest ≠ some src) (hne : t.inBuffers src dest ≠ [])
    (k : Nat) : t.cycle.patience src dest k < t.patience src dest k := by
  have hin : t.cycle.inBuffers src dest = t.inBuffers src dest := by
    rw [cycle_inBuffers hdest, if_neg hwin]
  unfold patience
  rw [hin]
  split
  · rename_i hnil
    exact absurd hnil hne
  · rename_i front rest hcons
    rw [cycle_cycles, cycle_nNodes]
    have hdist := RoundRobin.distance_lt (show 0 < t.nNodes by omega) (t.cycle.rrNextSrc dest) src
    by_cases hready : front.finishCycle ≤ t.cycles
    · -- the pair is ready, so another source is served and the pointer comes closer
      rw [if_pos hready, if_pos (by omega)]
      have hsource : t.ready dest src = true := ready_iff.mpr ⟨front, rest, hcons, hready⟩
      cases hw : t.winner dest with
      | none =>
        have hsome := RoundRobin.pick_isSome (p := t.rrNextSrc dest) hsrc hsource
        rw [← winner_eq_pick, hw] at hsome
        cases hsome
      | some w =>
        have hcloser := RoundRobin.distance_decreases hsrc hsource
          ((winner_eq_pick t dest).symm.trans hw) fun heq => hwin (heq ▸ hw)
        rw [cycle_rrNextSrc hdest, hw]
        simp only
        omega
    · rw [if_neg hready]
      have hmul : (k + 1) * t.nNodes = k * t.nNodes + t.nNodes := Nat.succ_mul k t.nNodes
      split <;> omega

/-- A call that delivers from the pair is one of the rounds that the others behind it count. -/
theorem patience_cycle_of_eq (hpaced : Paced t src dest) (hsrc : src < t.nNodes)
    (hdest : dest < t.nNodes) (hwin : t.winner dest = some src) (k : Nat) :
    t.cycle.patience src dest k < t.patience src dest (k + 1) := by
  obtain ⟨-, front, rest, hcons, hready⟩ := winner_eq_some hwin
  have hin : t.cycle.inBuffers src dest = rest := by
    rw [cycle_inBuffers hdest, if_pos hwin, hcons, List.tail_cons]
  have hchain := hpaced.chain
  rw [hcons] at hchain
  have hdist := RoundRobin.distance_lt (show 0 < t.nNodes by omega) (t.cycle.rrNextSrc dest) src
  have hmul : (k + 1) * t.nNodes = k * t.nNodes + t.nNodes := Nat.succ_mul k t.nNodes
  unfold patience
  rw [hin, hcons]
  simp only [hready, if_true]
  split
  · omega
  · rename_i front' rest'
    have hnext : front'.finishCycle = front.finishCycle + 1 := (List.isChain_cons_cons.mp hchain).1
    rw [cycle_cycles, if_pos (by omega), cycle_nNodes]
    omega

/-- The calls of `cycle` in a run. -/
def cycleCalls (h : List (SimpleInterconnect × Act)) : Nat := h.countP fun p => p.2 = .cycle

theorem patience_push (s d : Nat) (access : MemoryAccess) (hne : t.inBuffers src dest ≠ []) (k : Nat) :
    (t.push s d access).patience src dest k = t.patience src dest k := by
  have hhead : ∃ front rest rest', t.inBuffers src dest = front :: rest ∧
      (t.push s d access).inBuffers src dest = front :: rest' := by
    obtain ⟨front, rest, hcons⟩ := List.exists_cons_of_ne_nil hne
    by_cases hpair : s = src ∧ d = dest
    · obtain ⟨rfl, rfl⟩ := hpair
      refine ⟨front, rest, rest ++ [t.entity s d access], hcons, ?_⟩
      rw [← List.cons_append, ← hcons]
      exact setAt_self _
    · exact ⟨front, rest, rest, hcons, hcons ▸ setAt_of_ne (by tauto) _⟩
  obtain ⟨front, rest, rest', hcons, hcons'⟩ := hhead
  unfold patience
  rw [hcons, hcons']
  rfl

/-- Where the `k`-th access `e` of a pair is after the run `h`: delivered, or still waiting, with `j`
before it. -/
def Follows (bound : Nat) (src dest k : Nat) (e : Entity) (h : List (SimpleInterconnect × Act))
    (u : SimpleInterconnect) : Prop :=
  (∃ a, (arrivalsFrom src dest h)[k]? = some a ∧ a.access = e.access) ∨
    ∃ j, k = (arrivalsFrom src dest h).length + j ∧ (u.inBuffers src dest)[j]? = some e ∧
      u.patience src dest j + cycleCalls h ≤ bound

theorem Follows.step {bound k : Nat} {e : Entity} {a : Act} (hf : Follows bound src dest k e h t)
    (hpaced : Paced t src dest) (hsrc : src < t.nNodes) (hdest : dest < t.nNodes)
    (hs : step t a = some u) : Follows bound src dest k e (h ++ [(t, a)]) u := by
  have happ : ∀ h' : List (SimpleInterconnect × Act), arrivalsFrom src dest (h ++ h') =
      arrivalsFrom src dest h ++ arrivalsFrom src dest h' := fun h' => by
    simp [arrivalsFrom, arrivals]
  have hcount : ∀ a, cycleCalls (h ++ [(t, a)]) = cycleCalls h + if a = .cycle then 1 else 0 := by
    intro a
    simp [cycleCalls, List.countP_append, List.countP_singleton]
  rcases hf with ⟨q, hq, hacc⟩ | ⟨j, hk, hj, hbound⟩
  · left
    refine ⟨q, ?_, hacc⟩
    have hlt := (List.getElem?_eq_some_iff.mp hq).1
    rw [happ, List.getElem?_append_left hlt, hq]
  · have hne : t.inBuffers src dest ≠ [] := List.ne_nil_of_mem (List.mem_of_getElem? hj)
    rcases step_cases hs with ⟨s, d, access, rfl, -, -, rfl⟩ | ⟨rfl, rfl⟩ | ⟨nid, rfl, rfl⟩ |
      ⟨nid, access, rest, rfl, -, -, rfl⟩
    · right
      have hnone : arrivalsFrom src dest [(t, .push s d access)] = [] := rfl
      refine ⟨j, by rw [happ, hnone, List.append_nil]; exact hk, ?_, ?_⟩
      · by_cases hpair : s = src ∧ d = dest
        · obtain ⟨rfl, rfl⟩ := hpair
          have hin : (t.push s d access).inBuffers s d =
              t.inBuffers s d ++ [t.entity s d access] := setAt_self _
          rw [hin, List.getElem?_append_left (List.getElem?_eq_some_iff.mp hj).1, hj]
        · have hin : (t.push s d access).inBuffers src dest = t.inBuffers src dest :=
            setAt_of_ne (by tauto) _
          rw [hin, hj]
      · rw [patience_push s d access hne, hcount]
        simpa using hbound
    · by_cases hwin : t.winner dest = some src
      · obtain ⟨-, front, rest, hcons, -⟩ := winner_eq_some hwin
        have harr : arrivalsFrom src dest [(t, .cycle)] = [⟨src, front.access, t.cycles⟩] := by
          simp [arrivalsFrom, arrivals, granted, hwin, hcons]
        have hin : t.cycle.inBuffers src dest = rest := by
          rw [cycle_inBuffers hdest, if_pos hwin, hcons, List.tail_cons]
        rw [hcons] at hj
        cases j with
        | zero =>
          left
          obtain rfl : front = e := by simpa using hj
          refine ⟨⟨src, front.access, t.cycles⟩, ?_, rfl⟩
          rw [happ, harr, hk, Nat.add_zero, List.getElem?_concat_length]
        | succ j =>
          right
          have hless := patience_cycle_of_eq hpaced hsrc hdest hwin j
          refine ⟨j, ?_, ?_, ?_⟩
          · rw [happ, harr, List.length_append, List.length_singleton]
            omega
          · rw [hin]
            simpa using hj
          · rw [hcount, if_pos rfl]
            omega
      · right
        have hnone : arrivalsFrom src dest [(t, .cycle)] = [] := by
          cases hgranted : t.granted dest with
          | none => simp [arrivalsFrom, arrivals, hgranted]
          | some p =>
            obtain ⟨hwin', -⟩ := granted_eq_some hgranted
            have hp : p.1 ≠ src := fun heq => hwin (heq ▸ hwin')
            simp [arrivalsFrom, arrivals, hgranted, hp]
        have hless := patience_cycle_of_ne hsrc hdest hwin hne j
        refine ⟨j, by rw [happ, hnone, List.append_nil]; exact hk, ?_, ?_⟩
        · rw [cycle_inBuffers hdest, if_neg hwin, hj]
        · rw [hcount, if_pos rfl]
          omega
    · right
      have hnone : arrivalsFrom src dest [(u, .top nid)] = [] := rfl
      refine ⟨j, by rw [happ, hnone, List.append_nil]; exact hk, hj, ?_⟩
      rw [hcount]
      simpa using hbound
    · right
      have hnone : arrivalsFrom src dest [(t, .pop nid)] = [] := rfl
      refine ⟨j, by rw [happ, hnone, List.append_nil]; exact hk, hj, ?_⟩
      rw [hcount]
      simpa [patience] using hbound

theorem patience_pos {k : Nat} {e : Entity} (he : (t.inBuffers src dest)[k]? = some e) :
    0 < t.patience src dest k := by
  unfold patience
  split
  · rename_i hnil
    rw [hnil] at he
    cases he
  · split <;> omega

/-- An access with `k` others of its pair before it is delivered within `latency + (k + 1) * n` calls of
`cycle`, in its turn, whatever else is pushed and popped meanwhile. -/
theorem delivered_within {k : Nat} {e : Entity} {h' : List (SimpleInterconnect × Act)}
    (run : Run n latency h t) (hsrc : src < n) (hdest : dest < n)
    (he : (t.inBuffers src dest)[k]? = some e)
    (later : Machine.Run (Machine.partialDet step) t h' u)
    (hcalls : latency + (k + 1) * n ≤ cycleCalls h') :
    ∃ a, (arrivalsFrom src dest h')[k]? = some a ∧ a.access = e.access := by
  obtain ⟨hn, hlatency⟩ := Run.fixed run
  have hfollows : Follows (latency + (k + 1) * n) src dest k e h' u := by
    clear hcalls
    induction later with
    | nil =>
      refine .inr ⟨k, (Nat.zero_add k).symm, he, ?_⟩
      have hle := (run.paced src hdest).patience_le (hn ▸ hsrc) k
      rw [hn, hlatency] at hle
      exact hle
    | @snoc h' v a u later hs ih =>
      have run' : Run n latency (h ++ h') v := Machine.Run.append run later
      have hn' := (Run.fixed run').1
      exact ih.step (run'.paced src hdest) (hn' ▸ hsrc) (hn' ▸ hdest) hs
  rcases hfollows with hdone | ⟨j, -, hj, hle⟩
  · exact hdone
  · have hpos := patience_pos hj
    omega

/-- Node 1 keeps pushing while the second access of node 0 waits. -/
theorem delivered_within_contention : ∃ h t h' u e, Run 3 1 h t ∧ (t.inBuffers 0 2)[1]? = some e ∧
    Machine.Run (Machine.partialDet step) t h' u ∧ (pushes 1 2 h').length = 7 ∧
    ∃ a, (arrivalsFrom 0 2 h')[1]? = some a ∧ a.access = e.access := by
  let before : List Act := [.push 0 2 (probe 0), .push 0 2 (probe 1)]
  let after : List Act := (List.range 7).flatMap fun i => [.push 1 2 (probe (i + 2)), .cycle]
  have hrun : (Machine.Run.replay step (init 3 1) before).bind (fun p =>
      (Machine.Run.replay step p.2 after).map fun q =>
        ((p.2.inBuffers 0 2)[1]?.isSome, (pushes 1 2 q.1).length, cycleCalls q.1)) =
      some (true, 7, 7) := by decide +kernel
  obtain ⟨⟨h, t⟩, hreplay, hrest⟩ := Option.bind_eq_some_iff.mp hrun
  obtain ⟨⟨h', u⟩, hreplay', hobs⟩ := Option.map_eq_some_iff.mp hrest
  obtain ⟨hsome, hobs⟩ := Prod.mk.inj hobs
  obtain ⟨hpushes, hcalls⟩ := Prod.mk.inj hobs
  obtain ⟨e, he⟩ := Option.isSome_iff_exists.mp hsome
  have run : Run 3 1 h t := Machine.Run.of_replay hreplay
  have later := Machine.Run.of_replay hreplay'
  exact ⟨h, t, h', u, e, run, he, later, hpushes,
    delivered_within run (by decide) (by decide) he later hcalls.ge⟩

end SimpleInterconnect

end OnnxSim
