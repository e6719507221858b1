import OnnxSim.Lib.Loops
import OnnxSim.Ramulator.Run

/-!
# What holds between the calls on a controller

The times, the states and the counts in the tree are those that the commands issued so far and the
requests that are served imply, the table of rows has the open rows, and each queue has requests of its
kind (`Controller.Inv`). A part of `tick` keeps this and fails no assertion, with one exception: the
queue of the refreshes may be full (`Controller.Inv.tick`).
-/

namespace OnnxSim.Ram

namespace Controller

variable {spec : Spec} {id : Nat} {log : List Issue} {c c' : Controller} {name : QueueName}
  {r req : Request} {cmd : Command} {addr : AddrVec}

/-- The requests that belong into a queue. -/
def Kind (spec : Spec) (id : Nat) : QueueName → Request → Prop
  | .readq, r => r.type = .READ ∧ Addressed spec id r.addrVec
  | .writeq, r => r.type = .WRITE ∧ Addressed spec id r.addrVec
  | .actq, r => (r.type = .READ ∨ r.type = .WRITE) ∧ Addressed spec id r.addrVec ∧
      r.isFirstCommand = false
  | .otherq, r => r.type = .REFRESH ∧ ∃ rank < spec.count .Rank, r.addrVec = rankAddr id rank

/-- The addresses of the requests whose first command has been issued. -/
def begunAddrs (q : List Request) : List AddrVec :=
  (q.filter fun r => !r.isFirstCommand).map (·.addrVec)

/-- The addresses of the requests that are served. -/
def serving (c : Controller) : List AddrVec :=
  begunAddrs c.readq ++ begunAddrs c.writeq ++ begunAddrs c.actq ++ c.pending.map (·.addrVec)

structure Inv (spec : Spec) (id : Nat) (log : List Issue) (c : Controller) : Prop where
  level : c.channel.node.level = .Channel
  tracks : c.channel.Tracks spec log [(id : Int)]
  stands : c.channel.Stands spec log [(id : Int)]
  serves : c.channel.Serves c.serving [(id : Int)]
  table : RowTable.Holds spec id log c.rowtable
  kinds : ∀ name, ∀ r ∈ c.queue name, Kind spec id name r
  arrive : ∀ name, ∀ r ∈ c.queue name, r.arrive ≤ c.clk
  pending : ∀ r ∈ c.pending, r.type = .READ ∧ Addressed spec id r.addrVec ∧ 1 < r.depart - r.arrive
  room : c.otherq.length ≤ queueMax

theorem Inv.init (hstd : Standard spec) (scheduler : SchedulerType) (id : Nat) :
    Inv spec id [] (Controller.init spec scheduler id) where
  level := by
    change (DRAM.new spec DRAM.levels .Channel id).node.level = _
    unfold DRAM.levels DRAM.new
    split <;> rfl
  tracks := .new hstd.count (by decide) (by decide) rfl rfl
  stands := .new hstd.start hstd.count (by decide) (by decide) rfl
  serves := .new hstd.count (by decide) (by decide) rfl rfl
  table := .nil
  kinds name _ h := by cases name <;> cases h
  arrive name _ h := by cases name <;> cases h
  pending _ h := by cases h
  room := Nat.zero_le _

/-! ## Queues -/

theorem begunAddrs_append (q q' : List Request) :
    begunAddrs (q ++ q') = begunAddrs q ++ begunAddrs q' := by
  unfold begunAddrs
  rw [List.filter_append, List.map_append]

theorem begunAddrs_perm {q q' : List Request} (h : q.Perm q') :
    (begunAddrs q).Perm (begunAddrs q') := (h.filter _).map _

theorem begunAddrs_cons (r : Request) (q : List Request) :
    begunAddrs (r :: q) = (if r.isFirstCommand then [] else [r.addrVec]) ++ begunAddrs q := by
  unfold begunAddrs
  cases hfirst : r.isFirstCommand <;> simp [hfirst]

/-- More or less in one queue is more or less in all. -/
theorem serving_withQueue (hname : name ≠ .otherq) (q q' : List Request) (l l' : List AddrVec)
    (h : (l ++ begunAddrs q).Perm (l' ++ begunAddrs q')) :
    (l ++ (c.withQueue name q).serving).Perm (l' ++ (c.withQueue name q').serving) := by
  have hadd : ∀ a b : List AddrVec, (l ++ (a ++ begunAddrs q ++ b)).Perm
      (l' ++ (a ++ begunAddrs q' ++ b)) := by
    intro a b
    have hfront : ∀ k x : List AddrVec, (k ++ (a ++ x ++ b)).Perm (k ++ x ++ (a ++ b)) := by
      intro k x
      rw [List.append_assoc k x]
      refine List.Perm.append_left k ?_
      rw [← List.append_assoc x]
      exact List.perm_append_comm.append_right b
    exact (hfront l _).trans ((h.append_right (a ++ b)).trans (hfront l' _).symm)
  unfold serving
  cases name with
  | otherq => exact absurd rfl hname
  | readq =>
    have hall := hadd [] (begunAddrs c.writeq ++ begunAddrs c.actq ++ c.pending.map (·.addrVec))
    simpa [withQueue, List.append_assoc] using hall
  | writeq =>
    have hall := hadd (begunAddrs c.readq) (begunAddrs c.actq ++ c.pending.map (·.addrVec))
    simpa [withQueue, List.append_assoc] using hall
  | actq =>
    have hall := hadd (begunAddrs c.readq ++ begunAddrs c.writeq) (c.pending.map (·.addrVec))
    simpa [withQueue, List.append_assoc] using hall

@[simp] theorem withQueue_queue_self : c.withQueue name (c.queue name) = c := by
  cases name <;> rfl

theorem Inv.enqueue (h : Inv spec id log c) (hin : Incoming spec id req)
    (hs : c.enqueue req = some c') : Inv spec id log c' := by
  obtain ⟨-, rfl⟩ := enqueue_eq hs
  have hkind : Kind spec id (getQueue req.type) { req with arrive := c.clk } := by
    rcases hin.type with htype | htype
    · have hread : getQueue req.type = .readq := by rw [htype]; rfl
      rw [hread]
      exact ⟨htype, hin.addr⟩
    · have hwrite : getQueue req.type = .writeq := by rw [htype]; rfl
      rw [hwrite]
      exact ⟨htype, hin.addr⟩
  have hname : getQueue req.type ≠ .otherq := by
    rcases hin.type with htype | htype <;> rw [htype] <;> decide
  refine { level := ?_, tracks := ?_, stands := ?_, serves := ?_, table := ?_, kinds := ?_,
           arrive := ?_, pending := ?_, room := ?_ }
  · rw [withQueue_channel]; exact h.level
  · rw [withQueue_channel]; exact h.tracks
  · rw [withQueue_channel]; exact h.stands
  · rw [withQueue_channel]
    refine h.serves.perm ?_
    have hsame := serving_withQueue (c := c) hname
      (c.queue (getQueue req.type) ++ [{ req with arrive := c.clk }])
      (c.queue (getQueue req.type)) [] [] (by
        rw [begunAddrs_append, begunAddrs_cons]
        simp [hin.isFirstCommand, begunAddrs])
    simpa using hsame
  · rw [withQueue_rowtable]; exact h.table
  · intro name r hr
    by_cases hsame : name = getQueue req.type
    · subst hsame
      rw [queue_withQueue] at hr
      rcases List.mem_append.mp hr with hr | hr
      · exact h.kinds _ r hr
      · obtain rfl := List.mem_singleton.mp hr
        exact hkind
    · rw [queue_withQueue_of_ne hsame] at hr
      exact h.kinds name r hr
  · intro name r hr
    rw [withQueue_clk]
    by_cases hsame : name = getQueue req.type
    · subst hsame
      rw [queue_withQueue] at hr
      rcases List.mem_append.mp hr with hr | hr
      · exact h.arrive _ r hr
      · obtain rfl := List.mem_singleton.mp hr
        exact le_rfl
    · rw [queue_withQueue_of_ne hsame] at hr
      exact h.arrive name r hr
  · rw [withQueue_pending]; exact h.pending
  · have hother := queue_withQueue_of_ne (c := c) hname.symm
      (c.queue (getQueue req.type) ++ [{ req with arrive := c.clk }])
    change (queue _ .otherq).length ≤ _
    rw [hother]
    exact h.room

/-- The clock alone. -/
theorem Inv.advance (h : Inv spec id log c) : Inv spec id log { c with clk := c.clk + 1 } where
  level := h.level
  tracks := h.tracks
  stands := h.stands
  serves := h.serves
  table := h.table
  kinds := fun name r hr => h.kinds name r (by cases name <;> exact hr)
  arrive := fun name r hr => Nat.le_succ_of_le (h.arrive name r (by cases name <;> exact hr))
  pending := h.pending
  room := h.room

theorem Inv.agree (h : Inv spec id log c) (haddr : addr.get 0 = id) :
    addr.Agree (c.channel.node.level.toNat + 1) [(id : Int)] := by
  rw [h.level]
  exact agree_channel haddr

/-! ## Completed reads -/

theorem Inv.serve (h : Inv spec id log c) :
    ∃ c' reads, c.serve = some (c', reads) ∧ Inv spec id log c' ∧ c'.clk = c.clk := by
  unfold Controller.serve
  cases hpending : c.pending with
  | nil => exact ⟨c, [], rfl, h, rfl⟩
  | cons r rest =>
    obtain ⟨htype, haddr, hlong⟩ := h.pending r (by rw [hpending]; exact List.mem_cons_self)
    by_cases hdepart : r.depart ≤ c.clk
    · have hperm : (r.addrVec :: { c with pending := rest }.serving).Perm c.serving := by
        unfold serving
        rw [hpending]
        exact List.perm_middle.symm
      obtain ⟨ch, hch, hserves⟩ := (h.serves.perm hperm).stop c.clk haddr.inChannel
        (h.agree haddr.inChannel.channel)
      have hframe := DRAM.updateServingRequests_frame hch
      refine ⟨{ c with channel := ch, pending := rest }, [r], ?_, ?_, rfl⟩
      · simp only [if_pos htype, if_pos hdepart, if_pos hlong, updateServingRequests, hch]
        rfl
      · exact {
          level := hframe.node.1.level.trans h.level
          tracks := h.tracks.congr (hframe.mono fun _ _ => And.left)
          stands := h.stands.lift (hframe.mono fun _ _ => And.right)
          serves := hserves
          table := h.table
          kinds := fun name r hr => h.kinds name r (by cases name <;> exact hr)
          arrive := fun name r hr => h.arrive name r (by cases name <;> exact hr)
          pending := fun r' hr' => h.pending r' (by rw [hpending]; exact List.mem_cons_of_mem _ hr')
          room := h.room }
    · refine ⟨c, [], ?_, h, rfl⟩
      simp only [if_pos htype, if_neg hdepart]

/-! ## Refreshes -/

theorem Inv.ranks (h : Inv spec id log c) : c.channel.size = spec.count .Rank ∧
    c.channel.node.id = id ∧ ∀ i < c.channel.size, (c.channel.child i).node.id = i := by
  have hbelow : c.channel.node.level.toNat < Level.Bank.toNat := by
    rw [h.level]
    decide
  obtain ⟨hsize, hchildren⟩ := h.stands.child hbelow
  rw [h.level] at hsize
  refine ⟨hsize, ?_, fun i hi => (hchildren i hi).2.1⟩
  have hserves := h.serves
  have hlevel := h.level
  generalize c.channel = d at hserves hlevel
  have hid : (d.node.id : Int) = id := by
    cases d with
    | leaf n =>
      have hn := hserves.2.2.id
      change n.level = _ at hlevel
      rw [hlevel] at hn
      exact hn
    | branch n size children =>
      have hn := hserves.2.2.1.id
      change n.level = _ at hlevel
      rw [hlevel] at hn
      exact hn
  exact Int.ofNat_inj.mp hid

theorem refreshes_length (c : Controller) (n : Nat) : (c.refreshes n).length = n := by
  unfold refreshes
  rw [List.length_map, List.length_range]

theorem Inv.refreshes_kind (h : Inv spec id log c) {n : Nat} (hn : n ≤ c.channel.size) :
    ∀ r ∈ c.refreshes n, Kind spec id .otherq r ∧ r.arrive = c.clk := by
  intro r hr
  obtain ⟨hsize, hid, hchildren⟩ := h.ranks
  unfold refreshes at hr
  obtain ⟨i, hi, rfl⟩ := List.mem_map.mp hr
  have hi := List.mem_range.mp hi
  refine ⟨⟨rfl, i, by omega, ?_⟩, rfl⟩
  change rankAddr c.channel.node.id (c.channel.child i).node.id = _
  rw [hid, hchildren i (by omega)]

/-- The refreshes of the ranks fit into the queue. -/
theorem refreshTarget_fold_isSome (hroom : c.otherq.length ≤ queueMax) (n : Nat) :
    ((List.range n).foldlM
      (fun (c' : Controller) i => c'.refreshTarget (c.channel.child i).node.id) c).isSome ↔
      c.otherq.length + n ≤ queueMax := by
  induction n with
  | zero => exact iff_of_true rfl hroom
  | succ n ih =>
    rw [List.range_succ, List.foldlM_append]
    cases hfold : (List.range n).foldlM
        (fun (c' : Controller) i => c'.refreshTarget (c.channel.child i).node.id) c with
    | none =>
      rw [hfold] at ih
      refine iff_of_false Bool.false_ne_true fun hle => ?_
      exact Bool.false_ne_true (ih.mpr (by omega))
    | some c₁ =>
      rw [hfold] at ih
      have hle := ih.mp rfl
      obtain rfl := refreshTarget_fold hfold
      have hlength : (c.otherq ++ c.refreshes n).length = c.otherq.length + n := by
        rw [List.length_append, refreshes_length]
      change ((refreshTarget { c with otherq := c.otherq ++ c.refreshes n } _).bind some).isSome ↔ _
      unfold refreshTarget Controller.enqueue
      change ((if queueMax = (c.otherq ++ c.refreshes n).length then none else _).bind some).isSome ↔ _
      rw [hlength]
      split
      · exact iff_of_false Bool.false_ne_true (by omega)
      · exact iff_of_true rfl (by omega)

/-- The queue has no room for the refreshes that are due. -/
def Crowded (spec : Spec) (c : Controller) : Prop :=
  RefreshDue spec c ∧ queueMax < c.otherq.length + spec.count .Rank

instance (spec : Spec) (c : Controller) : Decidable (Crowded spec c) :=
  inferInstanceAs (Decidable (_ ∧ _))

theorem Inv.tickRef_isSome (h : Inv spec id log c) :
    (c.tickRef spec).isSome ↔ ¬ Crowded spec c := by
  have hfold := refreshTarget_fold_isSome (c := { c with
    refresh := { c.refresh with clk := c.refresh.clk + 1 } }) h.room c.channel.size
  unfold tickRef Crowded RefreshDue
  simp only
  by_cases hdue : spec.nREFI ≤ c.refresh.clk + 1 - c.refresh.refreshed
  · rw [if_pos hdue, and_iff_right hdue, ← h.ranks.1, not_lt, ← hfold]
    unfold injectRefresh
    rw [Option.bind_eq_bind, Option.isSome_bind]
    exact Bool.eq_iff_iff.mp Option.any_true
  · rw [if_neg hdue]
    exact iff_of_true rfl fun hcrowded => hdue hcrowded.1

/-- The counters of the refreshes alone. -/
theorem Inv.withRefresh (h : Inv spec id log c) (refresh : Refresh) :
    Inv spec id log { c with refresh := refresh } where
  level := h.level
  tracks := h.tracks
  stands := h.stands
  serves := h.serves
  table := h.table
  kinds := fun name r hr => h.kinds name r (by cases name <;> exact hr)
  arrive := fun name r hr => h.arrive name r (by cases name <;> exact hr)
  pending := h.pending
  room := h.room

theorem Inv.tickRef (h : Inv spec id log c) (hs : c.tickRef spec = some c') :
    Inv spec id log c' ∧ c'.clk = c.clk := by
  have hcrowded := h.tickRef_isSome.mp (Option.isSome_of_eq_some hs)
  obtain ⟨refresh, ⟨-, rfl⟩ | ⟨hdue, rfl⟩⟩ := tickRef_cases hs
  · exact ⟨h.withRefresh refresh, rfl⟩
  · have hroom : c.otherq.length + c.channel.size ≤ queueMax := by
      rw [h.ranks.1]
      exact not_lt.mp fun hlt => hcrowded ⟨hdue, hlt⟩
    refine ⟨{ h.withRefresh refresh with
        kinds := ?_
        arrive := ?_
        room := ?_ }, rfl⟩
    · intro name r hr
      cases name with
      | otherq =>
        rcases List.mem_append.mp hr with hr | hr
        · exact h.kinds .otherq r hr
        · exact (h.refreshes_kind le_rfl r hr).1
      | readq => exact h.kinds .readq r hr
      | writeq => exact h.kinds .writeq r hr
      | actq => exact h.kinds .actq r hr
    · intro name r hr
      cases name with
      | otherq =>
        rcases List.mem_append.mp hr with hr | hr
        · exact h.arrive .otherq r hr
        · exact le_of_eq (h.refreshes_kind le_rfl r hr).2
      | readq => exact h.arrive .readq r hr
      | writeq => exact h.arrive .writeq r hr
      | actq => exact h.arrive .actq r hr
    · change (c.otherq ++ c.refreshes c.channel.size).length ≤ queueMax
      rw [List.length_append, refreshes_length]
      exact hroom

theorem Inv.schedule (h : Inv spec id log c) : Inv spec id log c.schedule ∧ c.schedule.clk = c.clk := by
  obtain ⟨mode, heq⟩ := schedule_eq c
  rw [heq]
  exact ⟨{
    level := h.level
    tracks := h.tracks
    stands := h.stands
    serves := h.serves
    table := h.table
    kinds := fun name r hr => h.kinds name r (by cases name <;> exact hr)
    arrive := fun name r hr => h.arrive name r (by cases name <;> exact hr)
    pending := h.pending
    room := h.room }, rfl⟩

end Controller

end OnnxSim.Ram
