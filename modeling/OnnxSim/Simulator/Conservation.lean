import OnnxSim.Simulator.Routes
import OnnxSim.Lib.Custody

/-!
# Conservation of memory accesses

Whatever the order of the ticks, every access that a core has made is in its request queue, in one
buffer of the interconnect, in the DRAM, or consumed, and only its core consumes it; the counter of
unanswered writes counts the writes that have not been consumed, in the arithmetic of `uint32_t`
(`MemorySystem.conserved`). A store of `2 ^ 32` addresses brings the counter back to 0
(`MemorySystem.writes_wrap`).
-/

namespace OnnxSim

open Queues

/-- The accesses of the executed instructions. -/
def Core.created (c : Core) : List MemoryAccess := c.transfers.flatMap Prod.snd

namespace MemorySystem

variable {config : SimulationConfig} {s t : MemorySystem} {core : Nat}

/-- The accesses between the request queues and the cores. -/
def flying (config : SimulationConfig) (s : MemorySystem) : List MemoryAccess :=
  s.icnt.held ++ pool config.dramChannels s.dram.waiting ++
    pool config.dramChannels s.dram.responses

/-- The accesses each core has made, those in its queue and those it has consumed. The DRAM writes
into an access, so accesses are compared as answered. -/
structure Books (config : SimulationConfig) (s : MemorySystem) : Prop where
  ids : ∀ i, (s.cores i).id = i
  own : ∀ i, ∀ m ∈ (s.cores i).requestQueue, m.coreId = BitVec.ofNat 32 i
  custody : Custody.Balanced (fun m : MemoryAccess => m.coreId.toNat)
    (fun i => (s.cores i).created.map (·.answered))
    (fun i => (s.cores i).requestQueue.map (·.answered))
    (fun i => (s.consumed i).map (·.answered)) ((s.flying config).map (·.answered))
  fresh : ∀ i < config.numCores, ∀ m ∈ (s.cores i).created, ∃ k < s.nextAccessId, m.ptr = .heap k
  distinct : ((pool config.numCores fun i => (s.cores i).created).map (·.ptr)).Nodup
  writes : ∀ i, (s.cores i).waitingWriteReqs =
    ((s.cores i).created.countP (·.write) - (s.consumed i).countP (·.write)) % 2 ^ 32

/-- A core has consumed no more writes than it has made. -/
theorem consumed_le_of_custody {created queued consumed : Nat → List MemoryAccess}
    {flying : List MemoryAccess}
    (h : Custody.Balanced (fun m : MemoryAccess => m.coreId.toNat)
      (fun i => (created i).map (·.answered)) (fun i => (queued i).map (·.answered))
      (fun i => (consumed i).map (·.answered)) (flying.map (·.answered))) (i : Nat) :
    (consumed i).countP (·.write) ≤ (created i).countP (·.write) := by
  have hcount := h.countP_eq (·.write) i
  have hfun : (fun m : MemoryAccess => m.write) ∘ (fun m : MemoryAccess => m.answered) =
      fun m : MemoryAccess => m.write := rfl
  simp only [List.countP_map, hfun] at hcount
  omega

/-- A function of the cores after one of them has changed. -/
theorem apply_update {β : Type} (f : Core → β) (cores : Nat → Core) (core : Nat) (c : Core) :
    (fun i => f (Function.update cores core c i)) =
      Function.update (fun i => f (cores i)) core (f c) :=
  Function.comp_update f cores core c

theorem forall_update {β : Type} {p : Nat → β → Prop} {f : Nat → β} {k : Nat} {x : β}
    (h : ∀ i, p i (f i)) (hx : p k x) : ∀ i, p i (Function.update f k x i) :=
  (Function.forall_update_iff f p).mpr ⟨hx, fun i _ => h i⟩

/-! ## Calls on a core -/

theorem onCore_outgoing {act : Core.Act} (ht : onCore config s core act = some t)
    (hact : act = .cycle ∨ act = .popFinishedTile ∨ ∃ op, act = .issue op) :
    ∃ c new, Core.Outgoing new { s.cores core with nextAccessId := s.nextAccessId } c ∧
      t = { s with cores := Function.update s.cores core c, nextAccessId := c.nextAccessId } := by
  obtain ⟨c, hc, ht⟩ := Option.bind_eq_some_iff.mp ht
  obtain rfl := Option.some.inj ht
  obtain ⟨new, hnew⟩ := Core.step_outgoing hc hact
  exact ⟨c, new, hnew, rfl⟩

theorem Books.onCore {act : Core.Act} (hcores : config.numCores ≤ 2 ^ 32) (h : Books config s)
    (hcore : core < config.numCores) (ht : onCore config s core act = some t)
    (hact : act = .cycle ∨ act = .popFinishedTile ∨ ∃ op, act = .issue op) : Books config t := by
  obtain ⟨c, new, hnew, rfl⟩ := onCore_outgoing ht hact
  have hid : c.id = core := hnew.id.trans (h.ids core)
  have hown : ∀ m ∈ new, m.coreId = BitVec.ofNat 32 core := by
    intro m hm
    rw [(hnew.own m hm).1]
    exact congrArg _ (h.ids core)
  have hcreated : c.created = (s.cores core).created ++ new := hnew.transfers
  refine ⟨forall_update (p := fun i (c : Core) => c.id = i) h.ids hid,
    forall_update (p := fun i (c : Core) => ∀ m ∈ c.requestQueue, m.coreId = BitVec.ofNat 32 i) h.own ?_,
    ?_, ?_, ?_, ?_⟩
  · intro m hm
    rw [hnew.requestQueue, List.mem_append] at hm
    exact hm.elim (h.own core m) (hown m)
  · have howner : ∀ m ∈ new.map (·.answered), m.coreId.toNat = core := by
      intro m hm
      obtain ⟨m', hm', rfl⟩ := List.mem_map.mp hm
      change m'.coreId.toNat = core
      rw [hown m' hm', BitVec.toNat_ofNat, Nat.mod_eq_of_lt (hcore.trans_le hcores)]
    have hcustody := h.custody.create howner
    simp only [apply_update fun c : Core => c.created.map (·.answered),
      apply_update fun c : Core => c.requestQueue.map (·.answered), hcreated, hnew.requestQueue,
      List.map_append]
    exact hcustody
  · intro i hi m hm
    by_cases hcore' : i = core
    · subst hcore'
      simp only [Function.update_self, hcreated, List.mem_append] at hm
      rcases hm with hm | hm
      · obtain ⟨k, hk, hptr⟩ := h.fresh i hi m hm
        exact ⟨k, hk.trans_le hnew.nextAccessId, hptr⟩
      · obtain ⟨k, hptr, -, hk⟩ := hnew.fresh m hm
        exact ⟨k, hk, hptr⟩
    · simp only [Function.update_of_ne hcore'] at hm
      obtain ⟨k, hk, hptr⟩ := h.fresh i hi m hm
      exact ⟨k, hk.trans_le hnew.nextAccessId, hptr⟩
  · simp only [apply_update Core.created, hcreated]
    have hperm := pool_append (q := fun i => (s.cores i).created) hcore new
    rw [(hperm.map _).nodup_iff, List.map_append]
    refine List.nodup_append.mpr ⟨h.distinct, hnew.distinct, ?_⟩
    intro p hp q hq heq
    obtain ⟨m, hm, rfl⟩ := List.mem_map.mp hp
    obtain ⟨m', hm', rfl⟩ := List.mem_map.mp hq
    obtain ⟨i, hi, hm⟩ := mem_pool.mp hm
    obtain ⟨k, hk, hptr⟩ := h.fresh i hi m hm
    obtain ⟨k', hptr', hle, -⟩ := hnew.fresh m' hm'
    rw [hptr, hptr', MemoryPtr.heap.injEq] at heq
    have hle' : s.nextAccessId ≤ k' := hle
    omega
  · refine forall_update (p := fun i (c : Core) => c.waitingWriteReqs =
      (c.created.countP (·.write) - (s.consumed i).countP (·.write)) % 2 ^ 32) h.writes ?_
    have hw := h.writes core
    have hle := consumed_le_of_custody h.custody core
    have hlt : (s.cores core).waitingWriteReqs < 2 ^ 32 := by
      rw [hw]
      exact Nat.mod_lt _ (by decide)
    have hwaiting : c.waitingWriteReqs =
        ((s.cores core).waitingWriteReqs + new.countP (·.write)) % 2 ^ 32 := hnew.waiting hlt
    rw [hwaiting, hw, hcreated, List.countP_append, Nat.mod_add_mod]
    congr 1
    omega

/-! ## The interconnect and the DRAM -/

/-- A part of a tick makes no access. -/
theorem Books.of_created (h : Books config s) (hids : ∀ i, (t.cores i).id = (s.cores i).id)
    (hcreated : ∀ i, (t.cores i).created = (s.cores i).created)
    (hnext : t.nextAccessId = s.nextAccessId)
    (hown : ∀ i, ∀ m ∈ (t.cores i).requestQueue, m ∈ (s.cores i).requestQueue)
    (hcustody : Custody.Balanced (fun m : MemoryAccess => m.coreId.toNat)
      (fun i => (s.cores i).created.map (·.answered))
      (fun i => (t.cores i).requestQueue.map (·.answered))
      (fun i => (t.consumed i).map (·.answered)) ((t.flying config).map (·.answered)))
    (hwrites : ∀ i, (t.cores i).waitingWriteReqs =
      ((s.cores i).created.countP (·.write) - (t.consumed i).countP (·.write)) % 2 ^ 32) :
    Books config t where
  ids := fun i => (hids i).trans (h.ids i)
  own := fun i m hm => h.own i m (hown i m hm)
  custody := by simpa only [hcreated] using hcustody
  fresh := fun i hi m hm => hnext ▸ h.fresh i hi m (hcreated i ▸ hm)
  distinct := by simpa only [hcreated] using h.distinct
  writes := fun i => by rw [hwrites i, hcreated i]

/-- The medium changes in its order only. -/
theorem Books.reorder (h : Books config s) (hcores : t.cores = s.cores)
    (hnext : t.nextAccessId = s.nextAccessId) (hconsumed : t.consumed = s.consumed)
    (hfly : ((t.flying config).map (·.answered)).Perm ((s.flying config).map (·.answered))) :
    Books config t := by
  refine h.of_created (fun i => by rw [hcores]) (fun i => by rw [hcores]) hnext
    (fun i m hm => by rwa [hcores] at hm) ?_ fun i => by rw [hcores, hconsumed, h.writes i]
  rw [hcores, hconsumed]
  exact h.custody.reorder hfly

theorem Books.sendRequest {port : Nat} (hconfig : config.Accepted)
    (hcores : config.numCores ≤ 2 ^ 32) (hw : Wires config s) (h : Books config s)
    (hcore : core < config.numCores) (hport : port < config.nNodes)
    (hports : 0 < config.icntInjectionPortsPerCore)
    (ht : MemorySystem.sendRequest config s core port = some t) : Books config t := by
  rcases sendRequest_cases ht with rfl | ⟨front, rest, dest, hq, hdest, rfl⟩
  · exact h
  · have hcoreId := h.own core front (hq ▸ List.mem_cons_self)
    have hfront : { front with coreId := BitVec.ofNat 32 core } = front := by rw [← hcoreId]
    rw [hfront] at hdest
    have hnode : dest < config.nNodes := by
      refine Routed.lt_nNodes hconfig (m := front) ⟨⟨?_, hports⟩, hdest⟩
      rw [hcoreId, BitVec.toNat_ofNat, Nat.mod_eq_of_lt (hcore.trans_le hcores)]
      exact hcore
    have hheld : (s.icnt.push port dest front).held.Perm (front :: s.icnt.held) :=
      SimpleInterconnect.push_held (hw.nNodes ▸ hport) (hw.nNodes ▸ hnode)
    have hqueue : (s.cores core).requestQueue.map (·.answered) =
        front.answered :: rest.map (·.answered) := by
      rw [hq, List.map_cons]
    have hcustody := h.custody.send hqueue
      (((hheld.append_right _).append_right _).map (·.answered))
    rw [hfront]
    refine h.of_created ?_ ?_ rfl ?_ ?_ ?_
    · exact forall_update (p := fun i (c : Core) => c.id = (s.cores i).id) (fun _ => rfl) rfl
    · exact forall_update (p := fun i (c : Core) => c.created = (s.cores i).created) (fun _ => rfl) rfl
    · exact forall_update (p := fun i (c : Core) => ∀ m ∈ c.requestQueue, m ∈ (s.cores i).requestQueue)
        (fun _ _ hm => hm) fun m hm => hq ▸ List.mem_cons_of_mem _ hm
    · simp only [apply_update fun c : Core => c.requestQueue.map (·.answered)]
      exact hcustody
    · exact forall_update (p := fun i (c : Core) => c.waitingWriteReqs =
        ((s.cores i).created.countP (·.write) - (s.consumed i).countP (·.write)) % 2 ^ 32)
        h.writes (h.writes core)

theorem Books.takeResponse {noc : Nat} (hconfig : config.Accepted) (hw : Wires config s)
    (h : Books config s) (hcore : core < config.numCores)
    (hnoc : noc < config.icntInjectionPortsPerCore)
    (ht : MemorySystem.takeResponse s core (core * config.icntInjectionPortsPerCore + noc) =
      some t) : Books config t := by
  rcases takeResponse_cases ht with rfl | ⟨response, c, icnt, htop, hc, hpop, rfl⟩
  · exact h
  · obtain ⟨hframe, -, hwaiting⟩ := Core.pushMemoryResponse_outgoing hc
    obtain ⟨access, htop', hheld⟩ :=
      SimpleInterconnect.pop_held (hw.nNodes ▸ port_lt_nNodes hcore hnoc) hpop
    obtain rfl : response = access := Option.some.inj (htop.symm.trans htop')
    have hrouted := hw.carries.outBuffers _ response (List.mem_of_mem_head? htop)
    have howner : response.coreId.toNat = core := (hrouted.at_core hconfig hcore hnoc).2
    have hcustody := h.custody.receive (i := core) (x := response.answered) howner
      (((hheld.append_right _).append_right _).map (·.answered))
    have hconsumed : (fun i => ((Function.update s.consumed core
        (s.consumed core ++ [response])) i).map (·.answered)) =
        Function.update (fun i => (s.consumed i).map (·.answered)) core
          ((s.consumed core).map (·.answered) ++ [response.answered]) := by
      funext i
      by_cases hi : i = core
      · subst hi
        simp
      · simp [hi]
    rw [← hconsumed] at hcustody
    refine h.of_created ?_ ?_ rfl ?_ ?_ ?_
    · exact forall_update (p := fun i (c : Core) => c.id = (s.cores i).id) (fun _ => rfl) hframe.id
    · refine forall_update (p := fun i (c : Core) => c.created = (s.cores i).created) (fun _ => rfl) ?_
      rw [Core.created, hframe.transfers]
      rfl
    · refine forall_update (p := fun i (c : Core) => ∀ m ∈ c.requestQueue, m ∈ (s.cores i).requestQueue)
        (fun _ _ hm => hm) ?_
      rw [hframe.requestQueue]
      exact fun _ hm => hm
    · have hqueue : Function.update (fun i => (s.cores i).requestQueue.map (·.answered)) core
          (c.requestQueue.map (·.answered)) = fun i => (s.cores i).requestQueue.map (·.answered) := by
        rw [hframe.requestQueue]
        exact Function.update_eq_self core _
      simp only [apply_update fun c : Core => c.requestQueue.map (·.answered), hqueue]
      exact hcustody
    · intro i
      by_cases hi : i = core
      · subst hi
        simp only [Function.update_self]
        have hle : (Function.update s.consumed i (s.consumed i ++ [response]) i).countP (·.write) ≤
            (s.cores i).created.countP (·.write) := consumed_le_of_custody hcustody i
        rw [Function.update_self, List.countP_append] at hle
        rw [hwaiting, h.writes i, List.countP_append]
        cases hwrite : response.write with
        | true =>
          simp only [List.countP_singleton, hwrite, if_true] at hle ⊢
          omega
        | false => simp [hwrite]
      · simp only [Function.update_of_ne hi]
        exact h.writes i

theorem Books.toDram {full : Nat → Bool} {mem : Nat} (hw : Wires config s) (h : Books config s)
    (hmem : mem < config.dramChannels)
    (ht : MemorySystem.toDram config s full mem = some t) : Books config t := by
  rcases toDram_cases ht with rfl | ⟨front, icnt, htop, hpop, rfl⟩
  · exact h
  · have hnode : config.numCores * config.icntInjectionPortsPerCore + mem < s.icnt.nNodes :=
      hw.nNodes ▸ Nat.add_lt_add_left hmem _
    obtain ⟨access, htop', hheld⟩ := SimpleInterconnect.pop_held hnode hpop
    obtain rfl : front = access := Option.some.inj (htop.symm.trans htop')
    have hpush := pool_push (q := s.dram.waiting) (x := front) hmem
    refine h.reorder rfl rfl rfl (.map _ (.append_right _ ?_))
    exact (hpush.append_left _).trans (List.perm_middle.trans (hheld.symm.append_right _))

theorem Books.fromDram {mem : Nat} (hconfig : config.Accepted) (hw : Wires config s)
    (h : Books config s) (hmem : mem < config.dramChannels)
    (ht : MemorySystem.fromDram config s mem = some t) : Books config t := by
  rcases fromDram_cases ht with rfl | ⟨front, rest, dest, hres, hdest, rfl⟩
  · exact h
  · have hfrom := (hw.responses mem front (hres ▸ List.mem_cons_self)).1
    have hnode : dest < config.nNodes := Routed.lt_nNodes hconfig ⟨hfrom, hdest⟩
    have hheld : (s.icnt.push (config.numCores * config.icntInjectionPortsPerCore + mem) dest
        front).held.Perm (front :: s.icnt.held) :=
      SimpleInterconnect.push_held (hw.nNodes ▸ Nat.add_lt_add_left hmem _) (hw.nNodes ▸ hnode)
    have hremove := pool_remove (q := s.dram.responses) (l := rest) (x := front) hmem (by rw [hres])
    refine h.reorder rfl rfl rfl (.map _ ?_)
    refine ((hheld.append_right _).append_right _).trans ?_
    exact List.perm_middle.symm.trans (hremove.symm.append_left _)

theorem Books.answer {ch i : Nat} {m : MemoryAccess} (h : Books config s)
    (hch : ch < config.dramChannels) (hm : (s.dram.waiting ch)[i]? = some m) :
    Books config { s with dram := {
      waiting := Function.update s.dram.waiting ch ((s.dram.waiting ch).eraseIdx i)
      responses := Function.update s.dram.responses ch
        (s.dram.responses ch ++ [m.answered]) } } := by
  obtain ⟨hi, rfl⟩ := List.getElem?_eq_some_iff.mp hm
  have hremove := pool_remove (q := s.dram.waiting) (x := (s.dram.waiting ch)[i]) hch
    (List.getElem_cons_eraseIdx_perm hi).symm
  have hpush := pool_push (q := s.dram.responses) (x := (s.dram.waiting ch)[i].answered) hch
  refine h.reorder rfl rfl rfl ?_
  -- the answered access replaces the one that waited
  simp only [flying, List.map_append, List.append_assoc]
  refine .append_left _ ?_
  refine ((hpush.map _).append_left _).trans ?_
  refine List.perm_middle.trans ?_
  exact ((hremove.map (·.answered)).symm.append_right _)

/-! ## Runs -/

/-- Routing and books are kept together. -/
structure Inv (config : SimulationConfig) (s : MemorySystem) : Prop where
  wires : Wires config s
  books : Books config s

theorem Inv.init (config : SimulationConfig) (latency : Nat) (layerId fusedOpId : Nat → Nat) :
    Inv config (MemorySystem.init config latency layerId fusedOpId) where
  wires := by
    refine ⟨rfl, ⟨?_, ?_⟩, ?_, ?_⟩ <;> simp [MemorySystem.init, SimpleInterconnect.init]
  books := by
    have hfly : flying config (MemorySystem.init config latency layerId fusedOpId) = [] := by
      simp [flying, SimpleInterconnect.held, MemorySystem.init, SimpleInterconnect.init]
    refine ⟨fun _ => rfl, ?_, ?_, ?_, ?_, ?_⟩
    · simp [MemorySystem.init, Core.init]
    · rw [hfly]
      exact Custody.Balanced.nil
    · simp [MemorySystem.init, Core.init, Core.created]
    · simp [MemorySystem.init, Core.init, Core.created]
    · simp [MemorySystem.init, Core.init, Core.created]

theorem Inv.step {a : Act} (hconfig : config.Accepted) (hcores : config.numCores ≤ 2 ^ 32)
    (h : Inv config s) (ht : step config s a = some t) : Inv config t := by
  refine step_induction (P := Inv config) ?_ ?_ ?_ ?_ ?_ ?_ ?_ h ht
  · exact fun s t core act h hcore ht hact =>
      ⟨h.wires.onCore ht, h.books.onCore hcores hcore ht hact⟩
  · exact fun s ch i m h hch hm => ⟨h.wires.answer hm, h.books.answer hch hm⟩
  · intro s t core noc h hcore hnoc ht
    have hports : 0 < config.icntInjectionPortsPerCore := by omega
    exact ⟨h.wires.sendRequest hcores hcore hports ht, h.books.sendRequest hconfig hcores h.wires
      hcore (port_lt_nNodes hcore hnoc) hports ht⟩
  · exact fun s t core noc h hcore hnoc ht =>
      ⟨h.wires.takeResponse ht, h.books.takeResponse hconfig h.wires hcore hnoc ht⟩
  · exact fun s t full mem h hmem ht => ⟨h.wires.toDram ht, h.books.toDram h.wires hmem ht⟩
  · exact fun s t mem h hmem ht => ⟨h.wires.fromDram ht, h.books.fromDram hconfig h.wires hmem ht⟩
  · intro s h
    have hheld := SimpleInterconnect.cycle_held s.icnt
    exact ⟨h.wires.cycle, h.books.reorder rfl rfl rfl
      (.map _ ((hheld.append_right _).append_right _))⟩

theorem Run.inv {latency : Nat} {layerId fusedOpId : Nat → Nat}
    {h : List (MemorySystem × Act)} (run : Run config latency layerId fusedOpId h s)
    (hconfig : config.Accepted) (hcores : config.numCores ≤ 2 ^ 32) : Inv config s :=
  Machine.Run.invariant run (Inv.init config latency layerId fusedOpId)
    fun _ _ _ hs ht => hs.step hconfig hcores ht

/-! ## One place for each access -/

/-- The objects in the request queue of a core, in the interconnect and the DRAM, and among those
the core has consumed. -/
def places (config : SimulationConfig) (s : MemorySystem) (core : Nat) : List MemoryPtr :=
  ((s.cores core).requestQueue ++ s.flying config ++ s.consumed core).map (·.ptr)

/-- The writes that a core has made and not consumed. -/
def unconsumedWrites (s : MemorySystem) (core : Nat) : Nat :=
  (s.cores core).created.countP fun m => m.write && !((s.consumed core).map (·.ptr)).contains m.ptr

section Places

variable {m m' : MemoryAccess} {i j : Nat}

theorem filter_answered (l : List MemoryAccess) (i : Nat) :
    (l.map (·.answered)).filter (fun m => m.coreId.toNat == i) =
      (l.filter fun m => m.coreId.toNat == i).map (·.answered) := by
  rw [List.filter_map]
  rfl

/-- The accesses of a core, compared as answered. -/
theorem Books.perm (h : Books config s) (i : Nat) :
    ((s.cores i).created.map (·.answered)).Perm
      (((s.cores i).requestQueue ++ (s.flying config).filter (·.coreId.toNat == i) ++
        s.consumed i).map (·.answered)) := by
  simpa only [filter_answered, List.map_append] using h.custody.balance i

/-- What does not depend on the request flag is counted alike before and after an answer. -/
theorem Books.countP_eq (h : Books config s) (i : Nat) {p : MemoryAccess → Bool}
    (hp : ∀ m : MemoryAccess, p m.answered = p m) :
    (s.cores i).created.countP p =
      ((s.cores i).requestQueue ++ (s.flying config).filter (·.coreId.toNat == i) ++
        s.consumed i).countP p := by
  have hcount := (h.perm i).countP_eq p
  have hfun : p ∘ (fun m : MemoryAccess => m.answered) = p := funext hp
  simpa only [List.countP_map, hfun] using hcount

/-- No two accesses of a core are one object. -/
theorem Books.objects_nodup (h : Books config s) (hi : i < config.numCores) :
    (((s.cores i).requestQueue ++ (s.flying config).filter (·.coreId.toNat == i) ++
      s.consumed i).map (·.ptr)).Nodup := by
  have hcreated := pool_keys_self h.distinct hi
  have hperm := (h.perm i).map (·.ptr)
  have hfun : (fun m : MemoryAccess => m.ptr) ∘ (fun m : MemoryAccess => m.answered) =
      fun m : MemoryAccess => m.ptr := rfl
  rw [List.map_map, List.map_map, hfun] at hperm
  exact hperm.nodup_iff.mp hcreated

/-- What is in one of the places of a core, the core has made. -/
theorem Books.exists_created (h : Books config s)
    (hm : m ∈ (s.cores i).requestQueue ++ (s.flying config).filter (·.coreId.toNat == i) ++
      s.consumed i) : ∃ m' ∈ (s.cores i).created, m'.ptr = m.ptr := by
  have hmem : m.answered ∈ (s.cores i).created.map (·.answered) :=
    (h.perm i).mem_iff.mpr (List.mem_map_of_mem hm)
  obtain ⟨m', hm', heq⟩ := List.mem_map.mp hmem
  exact ⟨m', hm', by simpa using congrArg MemoryAccess.ptr heq⟩

theorem Wires.fromCore (h : Wires config s) (hm : m ∈ s.flying config) : FromCore config m := by
  rw [flying, List.mem_append, List.mem_append, SimpleInterconnect.held, List.mem_append] at hm
  rcases hm with ((hm | hm) | hm) | hm
  · obtain ⟨e, he, rfl⟩ := List.mem_map.mp hm
    obtain ⟨src, -, dest, -, he⟩ := mem_grid.mp he
    exact (h.carries.inBuffers src dest e he).1
  · obtain ⟨dest, -, hm⟩ := mem_pool.mp hm
    exact (h.carries.outBuffers dest m hm).1
  · obtain ⟨ch, -, hm⟩ := mem_pool.mp hm
    exact h.waiting ch m hm
  · obtain ⟨ch, -, hm⟩ := mem_pool.mp hm
    exact (h.responses ch m hm).1

/-- The object of an access of core `i` is in no place of another core. -/
theorem Books.ptr_ne (h : Books config s) (hi : i < config.numCores) (hj : j < config.numCores)
    (hij : j ≠ i) (hm : m ∈ (s.cores i).created)
    (hm' : m' ∈ (s.cores j).requestQueue ++ (s.flying config).filter (·.coreId.toNat == j) ++
      s.consumed j) : m'.ptr ≠ m.ptr := by
  obtain ⟨m'', hm'', heq⟩ := h.exists_created hm'
  rw [← heq]
  exact pool_keys h.distinct hj hi hij hm'' hm

/-- Each access of a core is in one of its places, once. -/
theorem Inv.places_count (h : Inv config s) (hi : i < config.numCores)
    (hm : m ∈ (s.cores i).created) : (s.places config i).count m.ptr = 1 := by
  have hone : (s.cores i).created.countP (·.ptr == m.ptr) = 1 := by
    have hnodup := pool_keys_self h.books.distinct hi
    have hcount := List.count_eq_one_of_mem hnodup (List.mem_map_of_mem hm)
    rwa [List.count, List.countP_map] at hcount
  have hflying : (s.flying config).countP (·.ptr == m.ptr) =
      ((s.flying config).filter (·.coreId.toNat == i)).countP (·.ptr == m.ptr) := by
    rw [List.countP_filter]
    apply List.countP_congr
    intro m' hm'
    simp only [Bool.and_eq_true, beq_iff_eq]
    refine ⟨fun heq => ⟨heq, ?_⟩, fun hboth => hboth.1⟩
    by_contra hother
    refine h.books.ptr_ne hi (h.wires.fromCore hm').1 hother hm ?_ heq
    exact List.mem_append_left _ (List.mem_append_right _ (List.mem_filter.mpr ⟨hm', by simp⟩))
  rw [h.books.countP_eq i fun _ => rfl, List.countP_append, List.countP_append, ← hflying] at hone
  rw [places, List.count, List.countP_map, List.countP_append, List.countP_append]
  exact hone

/-- The writes not consumed are those made without those consumed. -/
theorem Books.unconsumedWrites_eq (h : Books config s) (hi : i < config.numCores) :
    s.unconsumedWrites i =
      (s.cores i).created.countP (·.write) - (s.consumed i).countP (·.write) := by
  have hnodup := h.objects_nodup hi
  rw [List.map_append, List.nodup_append] at hnodup
  obtain ⟨-, -, hdisjoint⟩ := hnodup
  have hopen : ((s.cores i).requestQueue ++
      (s.flying config).filter (·.coreId.toNat == i)).countP
        (fun m => m.write && !((s.consumed i).map (·.ptr)).contains m.ptr) =
      ((s.cores i).requestQueue ++
        (s.flying config).filter (·.coreId.toNat == i)).countP (·.write) := by
    apply List.countP_congr
    intro m hm
    have hnot : m.ptr ∉ (s.consumed i).map (·.ptr) := fun hmem =>
      hdisjoint _ (List.mem_map_of_mem hm) _ hmem rfl
    simp [hnot]
  have hdone : (s.consumed i).countP
      (fun m => m.write && !((s.consumed i).map (·.ptr)).contains m.ptr) = 0 := by
    rw [List.countP_eq_zero]
    intro m hm
    have hmem : m.ptr ∈ (s.consumed i).map (·.ptr) := List.mem_map_of_mem hm
    simp [hmem]
  unfold unconsumedWrites
  rw [h.countP_eq i fun _ => rfl, h.countP_eq i fun _ => rfl, List.countP_append, hopen, hdone]
  simp only [List.countP_append]
  omega

end Places

/-- In every run, each access of a core is in one place and only that core consumes it, and the
counter of unanswered writes counts those not consumed, modulo `2 ^ 32`. -/
theorem conserved (hconfig : config.Accepted) (hcores : config.numCores ≤ 2 ^ 32) {latency : Nat}
    {layerId fusedOpId : Nat → Nat} {h : List (MemorySystem × Act)}
    (run : Run config latency layerId fusedOpId h s) {i : Nat} (hi : i < config.numCores) :
    ((s.cores i).created.map (·.answered)).Perm
      (((s.cores i).requestQueue ++ (s.flying config).filter (·.coreId.toNat == i) ++
        s.consumed i).map (·.answered)) ∧
    (∀ m ∈ (s.cores i).created, (s.places config i).count m.ptr = 1 ∧
      ∀ j < config.numCores, j ≠ i →
        ∀ m' ∈ (s.cores j).requestQueue ++ s.consumed j, m'.ptr ≠ m.ptr) ∧
    (s.cores i).waitingWriteReqs = s.unconsumedWrites i % 2 ^ 32 := by
  have hinv := run.inv hconfig hcores
  refine ⟨hinv.books.perm i, fun m hm => ⟨hinv.places_count hi hm, fun j hj hij m' hm' => ?_⟩, ?_⟩
  · refine hinv.books.ptr_ne hi hj hij hm ?_
    rcases List.mem_append.mp hm' with hm' | hm'
    · exact List.mem_append_left _ (List.mem_append_left _ hm')
    · exact List.mem_append_right _ hm'
  · rw [hinv.books.unconsumedWrites_eq hi]
    exact hinv.books.writes i

/-- A load that goes to the memory and comes back. -/
theorem conserved_load : ∃ h s, Run Core.twoChunkConfig 0 (fun _ => 0) (fun _ => 0) h s ∧
    (s.consumed 0).length = 1 ∧
    (s.cores 0).waitingWriteReqs = s.unconsumedWrites 0 % 2 ^ 32 := by
  let load : Instruction := { opcode := .MOVIN, destAddr := SPAD_BASE, size := 1, srcAddrs := [32] }
  let acts : List Act := [.issue 0 { status := .INITIALIZED, instructions := [load] },
    .coreCycle 0, .coreCycle 0, .icnt fun _ => false, .icnt fun _ => false, .answer 0 0,
    .icnt fun _ => false, .icnt fun _ => false]
  have hrun : (Machine.Run.replay (step Core.twoChunkConfig)
      (init Core.twoChunkConfig 0 (fun _ => 0) (fun _ => 0)) acts).map
        (fun p => (p.2.consumed 0).length) = some 1 := by decide +kernel
  obtain ⟨⟨h, s⟩, hreplay, hlength⟩ := Option.map_eq_some_iff.mp hrun
  have run : Run Core.twoChunkConfig 0 (fun _ => 0) (fun _ => 0) h s :=
    Machine.Run.of_replay hreplay
  have hconfig : Core.twoChunkConfig.Accepted := by
    unfold SimulationConfig.Accepted
    decide
  have hi : 0 < Core.twoChunkConfig.numCores := by decide
  exact ⟨h, s, run, hlength, (conserved hconfig (by decide) run hi).2.2⟩

/-! ## A store that wraps the counter -/

/-- The calls of a core as steps of the memory system. -/
def onFirstCore : Core.Act → Act
  | .issue op => .issue 0 op
  | .cycle => .coreCycle 0
  | _ => .popFinishedTile 0

/-- A run of a core by itself is a run of a system in which nothing else happens. -/
theorem exists_run_of_core {latency : Nat} {layerId fusedOpId : Nat → Nat} {calls : List Core.Act}
    {c : Core} (hcores : 0 < config.numCores)
    (hcalls : ∀ a ∈ calls, a = .cycle ∨ ∃ op, a = .issue op)
    (hc : calls.foldlM (Core.step config) (Core.init config 0 (layerId 0) (fusedOpId 0)) = some c) :
    ∃ h s, Run config latency layerId fusedOpId h s ∧ s.cores 0 = c ∧ s.consumed = fun _ => [] := by
  have hgen : ∀ (calls : List Core.Act) (h : List (MemorySystem × Act)) (s : MemorySystem),
      (∀ a ∈ calls, a = .cycle ∨ ∃ op, a = .issue op) →
      Run config latency layerId fusedOpId h s → s.nextAccessId = (s.cores 0).nextAccessId →
      (s.consumed = fun _ => []) → calls.foldlM (Core.step config) (s.cores 0) = some c →
      ∃ h s, Run config latency layerId fusedOpId h s ∧ s.cores 0 = c ∧
        s.consumed = fun _ => [] := by
    intro calls
    induction calls with
    | nil =>
      intro h s _ run _ hconsumed hc
      exact ⟨h, s, run, Option.some.inj hc, hconsumed⟩
    | cons a calls ih =>
      intro h s hcalls run hnext hconsumed hc
      rw [List.foldlM_cons] at hc
      obtain ⟨d, hd, hc⟩ := Option.bind_eq_some_iff.mp hc
      have hcore : { s.cores 0 with nextAccessId := s.nextAccessId } = s.cores 0 := by rw [hnext]
      have hon : onCore config s 0 a =
          some { s with cores := Function.update s.cores 0 d, nextAccessId := d.nextAccessId } := by
        simp [onCore, hcore, hd]
      have hstep : step config s (onFirstCore a) =
          some { s with cores := Function.update s.cores 0 d, nextAccessId := d.nextAccessId } := by
        rcases hcalls a List.mem_cons_self with rfl | ⟨op, rfl⟩
        · simpa [onFirstCore, step, hcores] using hon
        · simpa [onFirstCore, step, hcores] using hon
      exact ih _ _ (fun b hb => hcalls b (List.mem_cons_of_mem _ hb)) (Machine.Run.snoc run hstep)
        (by simp) hconsumed (by simpa using hc)
  exact hgen calls [] _ hcalls .nil rfl rfl hc

def wideStoreConfig : SimulationConfig :=
  { numCores := 1
    coreConfig := fun _ =>
      { vectorProcessBit := 8, coreHeight := 8, coreWidth := 8, spadSize := 192, accumSpadSize := 192 }
    dramChannels := 1
    dramReqSize := 32 }

/-- A store of `2 ^ 32` addresses. -/
def wideStore : Instruction :=
  { opcode := .MOVOUT, destAddr := SPAD_BASE, size := 1, srcAddrs := List.replicate (2 ^ 32) 0 }

/-- The destination is computed first; the store is executed in the fourth cycle. -/
def wideStoreCalls : List Core.Act :=
  [.issue { status := .INITIALIZED
            instructions := [{ opcode := .COMP, destAddr := SPAD_BASE, size := 1 }, wideStore] },
    .cycle, .cycle, .cycle, .cycle]

theorem wideStore_executed : (wideStoreCalls.foldlM (Core.step wideStoreConfig)
    (Core.init wideStoreConfig 0 0 0)).map (fun c => c.transfers.length) = some 1 := by
  decide +kernel

/-- The stores of these calls are the wide store. -/
def IsWide (inst : Instruction) : Prop :=
  Core.isMemory inst.opcode → inst.opcode = .MOVOUT ∧ inst.srcAddrs.length = 2 ^ 32

theorem stable_isWide : Core.Stable IsWide := by
  intro t inst hinst
  simpa [IsWide] using hinst

/-- The store makes `2 ^ 32` writes. -/
theorem wideStore_writes {c : Core} (hc : wideStoreCalls.foldlM (Core.step wideStoreConfig)
    (Core.init wideStoreConfig 0 0 0) = some c) : c.created.countP (·.write) = 2 ^ 32 := by
  obtain ⟨h, hacts, run⟩ := Machine.Run.of_foldlM hc
  have run' : Core.Run wideStoreConfig 0 0 0 h c := run
  have hissues : Machine.EachStep (fun _ a => Core.IssuesOnly IsWide a) h := by
    intro p hp op hop inst hinst
    have hmem : p.2 ∈ wideStoreCalls := hacts ▸ List.mem_map_of_mem hp
    rw [hop] at hmem
    simp only [wideStoreCalls, List.mem_cons, Core.Act.issue.injEq, reduceCtorEq, List.not_mem_nil,
      or_false] at hmem
    subst hmem
    rcases List.mem_cons.mp hinst with rfl | hinst
    · intro hmem
      cases hmem
    · obtain rfl := List.mem_singleton.mp hinst
      exact fun _ => ⟨rfl, List.length_replicate⟩
  have hlength := wideStore_executed
  rw [hc, Option.map_some, Option.some.injEq] at hlength
  obtain ⟨tr, htransfers⟩ := List.length_eq_one_iff.mp hlength
  have htr : tr ∈ c.transfers := htransfers ▸ List.mem_cons_self
  obtain ⟨⟨hmemory, hwide⟩, c₀, write, haccesses⟩ :=
    (run'.sourced stable_isWide hissues).transfers tr htr
  obtain ⟨hop, haddrs⟩ := hwide hmemory
  have hwrites : ∀ m ∈ tr.2, m.write = true := by
    intro m hm
    rw [run'.typed tr htr m hm, hop]
    rfl
  have hcreated : c.created = tr.2 := by
    rw [Core.created, htransfers, List.flatMap_singleton]
  rw [hcreated, List.countP_eq_length.mpr hwrites, haccesses, ← haddrs]
  simp [Core.accessesOf]

/-- The counter is 0 with `2 ^ 32` writes unanswered. -/
theorem writes_wrap : ¬ ∀ (config : SimulationConfig) (latency : Nat) (layerId fusedOpId : Nat → Nat)
    (h : List (MemorySystem × Act)) (s : MemorySystem), config.Accepted →
      config.numCores ≤ 2 ^ 32 → Run config latency layerId fusedOpId h s →
      ∀ i < config.numCores, (s.cores i).waitingWriteReqs = s.unconsumedWrites i := by
  intro hall
  obtain ⟨c, hc, -⟩ := Option.map_eq_some_iff.mp wideStore_executed
  have haccepted : wideStoreConfig.Accepted := by
    unfold SimulationConfig.Accepted
    decide
  obtain ⟨h, s, run, rfl, hconsumed⟩ := @exists_run_of_core wideStoreConfig 0 (fun _ => 0)
    (fun _ => 0) _ _ (by decide) (by simp [wideStoreCalls]) hc
  have hcores : wideStoreConfig.numCores ≤ 2 ^ 32 := by decide
  have hbooks := (run.inv haccepted hcores).books
  have heq := hall _ _ _ _ h s haccepted hcores run 0 (by decide)
  rw [hbooks.unconsumedWrites_eq (by decide), hbooks.writes 0, wideStore_writes hc, hconsumed]
    at heq
  simp at heq

end MemorySystem

end OnnxSim
