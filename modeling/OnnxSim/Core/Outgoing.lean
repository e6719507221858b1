import OnnxSim.Core.Traffic

/-!
# Outgoing accesses

What a call on a core adds to its request queue, and what it does to the counter of the writes that
have not been answered: the new accesses are the core's own requests, no two of them are one object,
and the counter grows by the writes among them.
-/

namespace OnnxSim

namespace Core

variable {config : SimulationConfig} {c d e : Core} {inst : Instruction}

/-- Between `c` and `d` the core has put the accesses `new` into its request queue. -/
structure Outgoing (new : List MemoryAccess) (c d : Core) : Prop where
  id : d.id = c.id
  requestQueue : d.requestQueue = c.requestQueue ++ new
  transfers : d.transfers.flatMap Prod.snd = c.transfers.flatMap Prod.snd ++ new
  nextAccessId : c.nextAccessId ≤ d.nextAccessId
  own : ∀ m ∈ new, m.coreId = BitVec.ofNat 32 c.id ∧ m.request = true
  fresh : ∀ m ∈ new, ∃ k, m.ptr = .heap k ∧ c.nextAccessId ≤ k ∧ k < d.nextAccessId
  distinct : (new.map (·.ptr)).Nodup
  waiting : c.waitingWriteReqs < 2 ^ 32 →
    d.waitingWriteReqs = (c.waitingWriteReqs + new.countP (·.write)) % 2 ^ 32

theorem Outgoing.none (hid : d.id = c.id) (hqueue : d.requestQueue = c.requestQueue)
    (htransfers : d.transfers = c.transfers) (hnext : d.nextAccessId = c.nextAccessId)
    (hwaiting : d.waitingWriteReqs = c.waitingWriteReqs) : Outgoing [] c d where
  id := hid
  requestQueue := by rw [hqueue, List.append_nil]
  transfers := by rw [htransfers, List.append_nil]
  nextAccessId := Nat.le_of_eq hnext.symm
  own := by simp
  fresh := by simp
  distinct := List.nodup_nil
  waiting := by
    intro hlt
    simpa [hwaiting] using (Nat.mod_eq_of_lt hlt).symm

theorem Frame.outgoing (h : Frame c d) (hwaiting : d.waitingWriteReqs = c.waitingWriteReqs) :
    Outgoing [] c d :=
  .none h.id h.requestQueue h.transfers h.nextAccessId hwaiting

theorem Outgoing.trans {new₁ new₂ : List MemoryAccess} (h₁ : Outgoing new₁ c d)
    (h₂ : Outgoing new₂ d e) : Outgoing (new₁ ++ new₂) c e where
  id := h₂.id.trans h₁.id
  requestQueue := by rw [h₂.requestQueue, h₁.requestQueue, List.append_assoc]
  transfers := by rw [h₂.transfers, h₁.transfers, List.append_assoc]
  nextAccessId := h₁.nextAccessId.trans h₂.nextAccessId
  own := by
    intro m hm
    rcases List.mem_append.mp hm with hm | hm
    · exact h₁.own m hm
    · exact h₁.id ▸ h₂.own m hm
  fresh := by
    intro m hm
    rcases List.mem_append.mp hm with hm | hm
    · obtain ⟨k, hk, hle, hlt⟩ := h₁.fresh m hm
      exact ⟨k, hk, hle, hlt.trans_le h₂.nextAccessId⟩
    · obtain ⟨k, hk, hle, hlt⟩ := h₂.fresh m hm
      exact ⟨k, hk, h₁.nextAccessId.trans hle, hlt⟩
  distinct := by
    rw [List.map_append]
    refine List.nodup_append.mpr ⟨h₁.distinct, h₂.distinct, ?_⟩
    intro p hp q hq heq
    obtain ⟨m, hm, rfl⟩ := List.mem_map.mp hp
    obtain ⟨m', hm', rfl⟩ := List.mem_map.mp hq
    obtain ⟨k, hk, -, hlt⟩ := h₁.fresh m hm
    obtain ⟨k', hk', hle, -⟩ := h₂.fresh m' hm'
    rw [hk, hk', MemoryPtr.heap.injEq] at heq
    omega
  waiting := by
    intro hlt
    have h := h₁.waiting hlt
    rw [h₂.waiting (h ▸ Nat.mod_lt _ (by decide)), h, List.countP_append]
    omega

/-! ## Stages that leave the counter alone -/

@[simp] theorem setBuffer_waitingWriteReqs (a : Bool) (s : Sram) :
    (c.setBuffer a s).waitingWriteReqs = c.waitingWriteReqs := by
  cases a <;> rfl

theorem fillDest_waitingWriteReqs (h : c.fillDest inst = some d) :
    d.waitingWriteReqs = c.waitingWriteReqs := by
  obtain ⟨s, -, h⟩ := Option.bind_eq_some_iff.mp h
  obtain rfl := Option.some.inj h
  exact setBuffer_waitingWriteReqs _ _

theorem allocDest_waitingWriteReqs (h : c.allocDest inst = some d) :
    d.waitingWriteReqs = c.waitingWriteReqs := by
  obtain ⟨s, -, h⟩ := Option.bind_eq_some_iff.mp h
  obtain rfl := Option.some.inj h
  exact setBuffer_waitingWriteReqs _ _

theorem noteLast_waitingWriteReqs (h : c.noteLast inst = some d) :
    d.waitingWriteReqs = c.waitingWriteReqs := by
  unfold noteLast at h
  split at h
  · obtain ⟨p, -, h⟩ := Option.bind_eq_some_iff.mp h
    split at h
    · obtain rfl := Option.some.inj h
      rfl
    · cases h
  · obtain rfl := Option.some.inj h
    rfl

theorem finishComputePipeline_outgoing (h : c.finishComputePipeline = some d) :
    Outgoing [] c d := by
  refine (finishComputePipeline_frame h).outgoing ?_
  rcases finishComputePipeline_cases h with rfl | ⟨inst, rest, e, f, -, -, he, hf, rfl⟩
  · rfl
  · exact (noteLast_waitingWriteReqs hf).trans (fillDest_waitingWriteReqs he)

theorem finishVectorPipeline_outgoing (h : c.finishVectorPipeline = some d) :
    Outgoing [] c d := by
  refine (finishVectorPipeline_frame h).outgoing ?_
  rcases finishVectorPipeline_cases h with rfl | ⟨inst, rest, e, f, -, -, he, hf, rfl⟩
  · rfl
  · exact (noteLast_waitingWriteReqs hf).trans (fillDest_waitingWriteReqs he)

theorem handleExInstQueue_outgoing (h : handleExInstQueue config c = some d) :
    Outgoing [] c d := by
  refine (handleExInstQueue_frame h).outgoing ?_
  unfold handleExInstQueue at h
  split at h
  · obtain rfl := Option.some.inj h
    rfl
  · split at h
    · obtain ⟨e, he, h⟩ := Option.bind_eq_some_iff.mp h
      have hwaiting := allocDest_waitingWriteReqs he
      split at h
      · obtain rfl := Option.some.inj h
        exact hwaiting
      · obtain ⟨cycles, -, h⟩ := Option.bind_eq_some_iff.mp h
        obtain rfl := Option.some.inj h
        exact hwaiting
    · obtain rfl := Option.some.inj h
      rfl

/-! ## Loads and stores -/

theorem mem_accessesOf {write : Bool} {m : MemoryAccess} (h : m ∈ accessesOf config c inst write) :
    ∃ i addr, i < inst.srcAddrs.length ∧
      m = accessFor config c inst write (c.nextAccessId + i) addr := by
  unfold accessesOf at h
  obtain ⟨i, hi, rfl⟩ := List.mem_mapIdx.mp h
  exact ⟨i, _, hi, rfl⟩

theorem accessesOf_ptr_nodup (write : Bool) :
    ((accessesOf config c inst write).map (·.ptr)).Nodup := by
  have heq : (accessesOf config c inst write).map (·.ptr) =
      (List.range inst.srcAddrs.length).map fun i => MemoryPtr.heap (c.nextAccessId + i) := by
    apply List.ext_getElem
    · simp [accessesOf]
    · intro i _ _
      simp [accessesOf, accessFor]
  rw [heq]
  refine List.Nodup.map ?_ List.nodup_range
  intro i j hij
  simpa using hij

theorem accessesOf_countP (write : Bool) :
    (accessesOf config c inst write).countP (·.write) =
      if write then inst.srcAddrs.length else 0 := by
  have hall : ∀ m ∈ accessesOf config c inst write, m.write = write := by
    intro m hm
    obtain ⟨i, addr, -, rfl⟩ := mem_accessesOf hm
    rfl
  cases write with
  | false =>
    rw [if_neg (by decide), List.countP_eq_zero]
    intro m hm
    simp [hall m hm]
  | true =>
    have hlength : (accessesOf config c inst true).length = inst.srcAddrs.length := by
      simp [accessesOf]
    rw [if_pos rfl, ← hlength, List.countP_eq_length]
    exact hall

/-- The accesses of an executed instruction, in a state `d` that counts its writes. -/
theorem request_outgoing {write : Bool} (h : c.request config inst write = some e)
    (hid : d.id = e.id) (hqueue : d.requestQueue = e.requestQueue)
    (htransfers : d.transfers = e.transfers) (hnext : d.nextAccessId = e.nextAccessId)
    (hwaiting : c.waitingWriteReqs < 2 ^ 32 → d.waitingWriteReqs =
      (e.waitingWriteReqs + if write then inst.srcAddrs.length else 0) % 2 ^ 32) :
    Outgoing (accessesOf config c inst write) c d := by
  unfold Core.request at h
  split at h
  · cases h
  · obtain rfl := Option.some.inj h
    refine ⟨hid, hqueue, by simp [htransfers], by simp [hnext], fun m hm => ?_, fun m hm => ?_,
      accessesOf_ptr_nodup write, fun hlt => ?_⟩
    · obtain ⟨i, addr, -, rfl⟩ := mem_accessesOf hm
      exact ⟨rfl, rfl⟩
    · obtain ⟨i, addr, hi, rfl⟩ := mem_accessesOf hm
      refine ⟨c.nextAccessId + i, rfl, Nat.le_add_right _ _, ?_⟩
      rw [hnext]
      exact Nat.add_lt_add_left hi _
    · rw [accessesOf_countP]
      exact hwaiting hlt

theorem handleLdInstQueue_outgoing (h : handleLdInstQueue config c = some d) :
    ∃ new, Outgoing new c d := by
  unfold handleLdInstQueue at h
  split at h
  · obtain rfl := Option.some.inj h
    exact ⟨[], .none rfl rfl rfl rfl rfl⟩
  · next front rest hq =>
    split at h
    · obtain ⟨s, hs, h⟩ := Option.bind_eq_some_iff.mp h
      obtain ⟨e, he, h⟩ := Option.bind_eq_some_iff.mp h
      obtain rfl := Option.some.inj h
      have hframe : Frame c (c.setBuffer front.toAccum s) :=
        Frame.setBuffer (Sram.prefetch_eq_some hs).2.2.2
      refine ⟨_, (hframe.outgoing (setBuffer_waitingWriteReqs _ _)).trans
        (request_outgoing he rfl rfl rfl rfl fun hlt => ?_)⟩
      unfold Core.request at he
      split at he
      · cases he
      · obtain rfl := Option.some.inj he
        exact (Nat.mod_eq_of_lt hlt).symm
    · cases h

theorem handleStInstQueue_outgoing (h : handleStInstQueue config c = some d) :
    ∃ new, Outgoing new c d := by
  unfold handleStInstQueue at h
  split at h
  · obtain rfl := Option.some.inj h
    exact ⟨[], .none rfl rfl rfl rfl rfl⟩
  · cases h
  · next front rest hq =>
    split at h
    · split at h
      · obtain ⟨e, he, h⟩ := Option.bind_eq_some_iff.mp h
        obtain ⟨f, hf, h⟩ := Option.bind_eq_some_iff.mp h
        obtain rfl := Option.some.inj h
        have hframe := noteLast_frame hf
        exact ⟨_, request_outgoing he hframe.id hframe.requestQueue hframe.transfers
          hframe.nextAccessId fun _ => noteLast_waitingWriteReqs hf⟩
      · obtain rfl := Option.some.inj h
        exact ⟨[], .none rfl rfl rfl rfl rfl⟩
    · cases h

/-! ## The calls -/

theorem issueFrom_outgoing {order : List Nat} (h : issueFrom config c order = some d) :
    Outgoing [] c d := by
  refine issueFrom_induction (P := Outgoing [] c) ?_ ?_ (.none rfl rfl rfl rfl rfl) h
  · exact fun _ _ _ _ _ hc _ _ => hc.trans (.none rfl rfl rfl rfl rfl)
  · intro _ _ _ _ _ q hc _ _ hq
    cases hq <;> exact hc.trans (.none rfl rfl rfl rfl rfl)

theorem cycle_outgoing (h : cycle config c = some d) : ∃ new, Outgoing new c d := by
  obtain ⟨e, he, h⟩ := Option.bind_eq_some_iff.mp h
  obtain rfl := Option.some.inj h
  have hretired : Outgoing [] e e.retire := by
    rcases retire_cases e with heq | ⟨i, t, -, -, -, heq⟩
    · rw [heq]
      exact .none rfl rfl rfl rfl rfl
    · rw [heq]
      exact .none rfl rfl rfl rfl rfl
  unfold beforeRetirement at he
  split at he
  · cases he
  · obtain ⟨f, hf, he⟩ := Option.bind_eq_some_iff.mp he
    obtain ⟨d₁, h₁, hf⟩ := Option.bind_eq_some_iff.mp hf
    obtain ⟨d₂, h₂, hf⟩ := Option.bind_eq_some_iff.mp hf
    obtain ⟨d₃, h₃, hf⟩ := Option.bind_eq_some_iff.mp hf
    obtain ⟨d₄, h₄, hf⟩ := Option.bind_eq_some_iff.mp hf
    obtain ⟨loads, hloads⟩ := handleLdInstQueue_outgoing h₃
    obtain ⟨stores, hstores⟩ := handleStInstQueue_outgoing hf
    have hticked : Outgoing [] f { f with coreCycle := f.coreCycle + 1 } :=
      .none rfl rfl rfl rfl rfl
    exact ⟨_, (finishComputePipeline_outgoing h₁).trans <|
      (finishVectorPipeline_outgoing h₂).trans <| hloads.trans <|
      (handleExInstQueue_outgoing h₄).trans <| hstores.trans <|
      hticked.trans <| (issueFrom_outgoing he).trans hretired⟩

theorem issue_outgoing (c : Core) (op : Tile) : Outgoing [] c (c.issue op) := by
  unfold issue
  by_cases hskip : op.skip = true
  · simp only [hskip, if_true]
    exact .none rfl rfl rfl rfl rfl
  · simp only [hskip]
    exact .none rfl rfl rfl rfl rfl

/-- The calls of the scheduler and of the clock. -/
theorem step_outgoing {a : Act} (h : step config c a = some d)
    (ha : a = .cycle ∨ a = .popFinishedTile ∨ ∃ op, a = .issue op) : ∃ new, Outgoing new c d := by
  rcases ha with rfl | rfl | ⟨op, rfl⟩
  · exact cycle_outgoing h
  · obtain rfl := Option.some.inj h
    exact ⟨[], .none rfl rfl rfl rfl rfl⟩
  · obtain rfl := Option.some.inj h
    exact ⟨[], issue_outgoing c op⟩

/-- A response changes the counter of unanswered writes only, and that one by 1 for a write. -/
theorem pushMemoryResponse_outgoing {response : MemoryAccess}
    (h : c.pushMemoryResponse response = some d) :
    Frame c d ∧ response.request = false ∧
      d.waitingWriteReqs = if response.write then (c.waitingWriteReqs + 2 ^ 32 - 1) % 2 ^ 32
        else c.waitingWriteReqs := by
  refine ⟨pushMemoryResponse_frame h, ?_⟩
  unfold pushMemoryResponse at h
  split at h
  · cases h
  · next hrequest =>
    refine ⟨by simpa using hrequest, ?_⟩
    split at h
    · next hwrite =>
      obtain rfl := Option.some.inj h
      rw [if_pos hwrite]
    · next hwrite =>
      rw [if_neg hwrite]
      split at h
      · obtain ⟨s, -, h⟩ := Option.bind_eq_some_iff.mp h
        obtain rfl := Option.some.inj h
        rfl
      · obtain ⟨s, -, h⟩ := Option.bind_eq_some_iff.mp h
        obtain rfl := Option.some.inj h
        rfl

/-! ## Reads and writes -/

/-- The accesses of a store write, and those of a load read. -/
def Typed (c : Core) : Prop := ∀ tr ∈ c.transfers, ∀ m ∈ tr.2, m.write = isStore tr.1.opcode

theorem Typed.of_transfers (h : Typed c) (heq : d.transfers = c.transfers) : Typed d := by
  unfold Typed
  rwa [heq]

theorem Typed.executed {write : Bool} (h : Typed c) (hex : Executed config inst write c d)
    (hop : isStore inst.opcode = write) : Typed d := by
  intro tr htr m hm
  rw [hex.transfers, List.mem_append, List.mem_singleton] at htr
  rcases htr with htr | rfl
  · exact h tr htr m hm
  · obtain ⟨i, addr, -, rfl⟩ := mem_accessesOf hm
    exact hop.symm

theorem Typed.cycle (h : Typed c) (hd : cycle config c = some d) : Typed d := by
  obtain ⟨e, he, hd⟩ := Option.bind_eq_some_iff.mp hd
  obtain rfl := Option.some.inj hd
  have hbefore : Typed e := by
    unfold beforeRetirement at he
    split at he
    · cases he
    · obtain ⟨f, hf, he⟩ := Option.bind_eq_some_iff.mp he
      have hstages : Typed f := by
        refine handlePipelines_induction (P := Typed) ?_ ?_ ?_ ?_ h hf
        · exact fun _ _ hc hframe => hc.of_transfers hframe.transfers
        · intro _ _ inst hc hop _ _ hex
          exact hc.executed hex (by rw [hop]; rfl)
        · exact fun _ _ _ hc _ => hc
        · exact fun _ _ _ hc hop _ _ hex => hc.executed hex hop
      refine issueFrom_induction (P := Typed) (c := { f with coreCycle := f.coreCycle + 1 })
        ?_ ?_ hstages he
      · exact fun _ _ _ _ _ hc _ _ => hc
      · intro _ _ _ _ _ q hc _ _ hq
        cases hq <;> exact hc
  rcases retire_cases e with heq | ⟨i, t, -, -, -, heq⟩
  · rwa [heq]
  · rw [heq]
    exact hbefore

theorem Run.typed {id layerId fusedOpId : Nat} {h : List (Core × Act)}
    (run : Run config id layerId fusedOpId h c) : Typed c := by
  refine Machine.Run.invariant (P := Typed) run (by simp [Typed, init]) ?_
  intro c a d hc hs
  cases a with
  | issue op =>
    obtain rfl := Option.some.inj hs
    exact hc.of_transfers (issue_spec c op).transfers
  | cycle => exact hc.cycle hs
  | popFinishedTile =>
    obtain rfl := Option.some.inj hs
    exact hc
  | popMemoryRequest =>
    obtain ⟨⟨m, d⟩, hp, rfl⟩ := Option.map_eq_some_iff.mp hs
    exact hc.of_transfers (by rw [(popMemoryRequest_eq_some hp).2])
  | pushMemoryResponse response => exact hc.of_transfers (pushMemoryResponse_frame hs).transfers

end Core

end OnnxSim
