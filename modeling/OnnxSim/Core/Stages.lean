import OnnxSim.Core.Shelter

/-!
# The stages of a cycle keep the shelters

One lemma for each stage of a cycle (`Core.Sheltered.finishComputePipeline` and so on), in the order in
which `cycle` runs them. Where an instruction leaves the list of its tile, what it was awaited for is
there: its operands are valid, so no fill is outstanding for them, and a store finds its destination
valid, so no matrix instruction with that destination is in the pipeline.
-/

namespace OnnxSim

namespace Core

variable {config : SimulationConfig} {memory : List MemoryAccess} {c d : Core}

/-! ## Entries under the operations of a scratchpad -/

section Entries

variable {slot : Slot} {s : Sram}

/-- The answer to a read, or the end of a matrix instruction. -/
theorem counted_fill {out out' : List Slot}
    (h : Scoreboard.Counted SramEntry.valid SramEntry.remainReqCount c.entry out)
    (hs : (c.buffer slot.accum).fill slot.addr slot.bufferId = some s)
    (hout : out.Perm (slot :: out')) :
    Scoreboard.Counted SramEntry.valid SramEntry.remainReqCount (c.setBuffer slot.accum s).entry
      out' := by
  obtain ⟨e, he, hentry⟩ := entry_fill hs
  rw [hentry]
  exact h.fill he hout rfl fun hvalid => by simpa using hvalid

/-- A new entry waits for `count` fills. -/
theorem counted_prefetch {out : List Slot} {size count : Nat}
    (h : Scoreboard.Counted SramEntry.valid SramEntry.remainReqCount c.entry out)
    (hs : (c.buffer slot.accum).prefetch slot.addr slot.bufferId size count = some s) :
    Scoreboard.Counted SramEntry.valid SramEntry.remainReqCount (c.setBuffer slot.accum s).entry
      (List.replicate count slot ++ out) := by
  obtain ⟨hnone, hentry⟩ := entry_prefetch hs
  rw [hentry]
  exact h.allocate hnone rfl Bool.false_ne_true

/-- A matrix instruction will add to an entry. -/
theorem counted_countUp {out : List Slot}
    (h : Scoreboard.Counted SramEntry.valid SramEntry.remainReqCount c.entry out)
    (hs : (c.buffer slot.accum).countUp slot.addr slot.bufferId = some s) :
    Scoreboard.Counted SramEntry.valid SramEntry.remainReqCount (c.setBuffer slot.accum s).entry
      (slot :: out) := by
  obtain ⟨e, he, hentry⟩ := entry_countUp hs
  rw [hentry]
  exact h.countUp he rfl Bool.false_ne_true

/-- A matrix instruction has allocated its destination, or counted one more result for it. -/
theorem counted_allocIn {out : List Slot} {x : Instruction} (hx : x.zeroInit = false)
    (h : Scoreboard.Counted SramEntry.valid SramEntry.remainReqCount c.entry out)
    (hs : allocIn (c.buffer x.toAccum) x = some s) :
    Scoreboard.Counted SramEntry.valid SramEntry.remainReqCount (c.setBuffer x.toAccum s).entry
      (x.slot :: out) := by
  unfold allocIn at hs
  split at hs
  · have hcount : (c.buffer x.slot.accum).countUp x.slot.addr x.slot.bufferId = some s := hs
    exact counted_countUp h hcount
  · simp only [hx, Bool.false_eq_true, if_false] at hs
    have hone : (c.buffer x.slot.accum).prefetch x.slot.addr x.slot.bufferId x.size 1 = some s := hs
    exact counted_prefetch h hone

end Entries

theorem entry_congr (hspad : d.spad = c.spad) (hacc : d.accSpad = c.accSpad) : d.entry = c.entry := by
  funext slot
  unfold entry buffer
  cases slot.accum
  · rw [hspad]
  · rw [hacc]

/-! ## The end of a matrix instruction -/

theorem lastOf_untimed (l : List Instruction) : lastOf (l.map Instruction.untimed) = lastOf l := by
  unfold lastOf
  rw [List.filter_map, List.map_map]
  rfl

theorem Sheltered.finishComputePipeline (h : Sheltered memory c)
    (hd : c.finishComputePipeline = some d) : Sheltered memory d := by
  rcases finishComputePipeline_effect hd with rfl | ⟨x, rest, s, fin, hpipe, hs, rfl⟩
  · exact h
  have hcomputing : c.computing = x.untimed :: (rest ++ c.exInstQueue).map Instruction.untimed := by
    unfold computing
    rw [hpipe]
    rfl
  have hfin : c.finishing.Perm (lastOf [x] ++ lastOf
      ((rest ++ c.exInstQueue).map Instruction.untimed ++ c.stInstQueue.reduceOption)) := by
    unfold finishing
    rw [hcomputing, ← List.singleton_append, List.append_assoc, lastOf_append,
      show lastOf [x.untimed] = lastOf [x] from lastOf_untimed [x]]
  have hout : (c.outstanding memory).Perm
      (x.slot :: ((c.unanswered memory).map (·.slot) ++ rest.map (·.slot))) := by
    unfold outstanding
    rw [hpipe]
    exact List.perm_middle
  have hcounted := counted_fill h.counted hs hout
  rw [setBuffer_eq] at hcounted ⊢
  refine ⟨?_, h.vector, ?_, ?_, ?_, hcounted, ?_⟩
  · refine List.forall_mem_map.mpr fun t ht => ?_
    rw [mark_instructions]
    exact h.order t ht
  · exact fun y hy => h.computes y (hcomputing ▸ List.mem_cons_of_mem _ hy)
  · intro y hy
    obtain ⟨hsize, hawait⟩ := h.loads y hy
    exact ⟨hsize, fun hspad hne => (hawait hspad hne).marked hfin⟩
  · have hanchored := h.anchored
    rw [hcomputing] at hanchored
    exact hanchored.2.marked
  · exact fun m hm hspad => (h.reads m hm hspad).marked hfin

theorem Sheltered.finishPipelines (h : Sheltered memory c) (hd : c.finishPipelines = some d) :
    Sheltered memory d := by
  obtain ⟨e, he, hd⟩ := Option.bind_eq_some_iff.mp hd
  have he := h.finishComputePipeline he
  rcases finishVectorPipeline_effect hd with rfl | ⟨x, rest, s, fin, hpipe, -⟩
  · exact he
  · rw [he.vector] at hpipe
    cases hpipe

/-! ## Loads -/

section Requests

variable {x : Instruction} {write : Bool}

theorem slot_of_accessesOf {m : MemoryAccess} (hm : m ∈ accessesOf config c x write) :
    m.slot = x.slot ∧ m.write = write := by
  obtain ⟨i, -, rfl⟩ := List.mem_mapIdx.mp hm
  exact ⟨rfl, rfl⟩

theorem accessesOf_slots :
    (accessesOf config c x write).map (·.slot) = List.replicate x.srcAddrs.length x.slot := by
  refine List.eq_replicate_iff.mpr ⟨?_, List.forall_mem_map.mpr fun m hm => (slot_of_accessesOf hm).1⟩
  unfold accessesOf
  rw [List.length_map, List.length_mapIdx]

theorem unanswered_of_reads (hqueue : d.requestQueue = c.requestQueue ++ accessesOf config c x false) :
    (d.unanswered memory).Perm (accessesOf config c x false ++ c.unanswered memory) := by
  have hall : (accessesOf config c x false).filter (!·.write) = accessesOf config c x false :=
    List.filter_eq_self.mpr fun m hm => by rw [(slot_of_accessesOf hm).2]; rfl
  unfold unanswered
  rw [hqueue, List.append_assoc, List.filter_append, List.filter_append, hall, List.filter_append]
  exact List.perm_append_comm_assoc _ _ _

theorem unanswered_of_writes (hqueue : d.requestQueue = c.requestQueue ++ accessesOf config c x true) :
    d.unanswered memory = c.unanswered memory := by
  have hnone : (accessesOf config c x true).filter (!·.write) = [] :=
    List.filter_eq_nil_iff.mpr fun m hm => by rw [(slot_of_accessesOf hm).2]; decide
  unfold unanswered
  rw [hqueue, List.filter_append, List.filter_append, List.filter_append, hnone, List.append_nil]

end Requests

/-- The load at the front of the queue is executed. -/
theorem Sheltered.handleLdInstQueue (h : Sheltered memory c)
    (hd : Core.handleLdInstQueue config c = some d) : Sheltered memory d := by
  rcases handleLdInstQueue_effect hd with ⟨rfl, -⟩ | ⟨x, rest, s, hq, -, hs, hd⟩
  · exact h
  obtain ⟨hsize, hawait⟩ := h.loads x (hq ▸ List.mem_cons_self)
  have hcounted := counted_prefetch h.counted hs
  rw [setBuffer_eq] at hcounted hd
  have hreads : (d.unanswered memory).Perm (accessesOf config c x false ++ c.unanswered memory) :=
    unanswered_of_reads (by rw [hd])
  have hfin : d.finishing = c.finishing := by rw [hd]; rfl
  have hout : (List.replicate x.size x.slot ++ c.outstanding memory).Perm (d.outstanding memory) := by
    have hslots := (hreads.map (·.slot)).append_right (c.computePipeline.map (·.slot))
    rw [List.map_append, accessesOf_slots, ← hsize, List.append_assoc] at hslots
    unfold outstanding
    rw [show d.computePipeline = c.computePipeline from by rw [hd]]
    exact hslots.symm
  have hcounted := hcounted.perm hout
  have htiles : d.tiles = c.tiles := by rw [hd]
  refine ⟨htiles ▸ h.order, ?_, ?_, ?_, ?_, ?_, ?_⟩
  · rw [hd]
    exact h.vector
  · rw [hd]
    exact h.computes
  · rw [htiles, hfin, hd]
    exact fun y hy => h.loads y (hq ▸ List.mem_cons_of_mem _ hy)
  · rw [hd]
    exact h.anchored
  · rw [hd] at hcounted ⊢
    exact hcounted
  · rw [htiles, hfin]
    intro m hm hspad
    rcases List.mem_append.mp (hreads.subset hm) with hm | hm
    · rw [(slot_of_accessesOf hm).1] at hspad ⊢
      refine hawait hspad fun hnil => ?_
      unfold accessesOf at hm
      rw [hnil] at hm
      cases hm
    · exact h.reads m hm hspad

/-! ## Computations -/

/-- The matrix instruction in the execute queue enters the pipeline. -/
theorem Sheltered.handleExInstQueue (h : Sheltered memory c)
    (hd : Core.handleExInstQueue config c = some d) : Sheltered memory d := by
  have hgemm : ∀ {front : Instruction} {rest : List Instruction}, c.exInstQueue = front :: rest →
      IsGemm front.opcode ∧ front.zeroInit = false := by
    intro front rest hq
    have hmem : front.untimed ∈ c.computing := by
      unfold computing
      rw [hq]
      exact List.mem_map_of_mem (List.mem_append_right _ List.mem_cons_self)
    obtain ⟨hgemm, hplain⟩ := h.computes _ hmem
    exact ⟨hgemm, (hplain.gemm (isGemm_not_load hgemm)
      (Bool.eq_false_iff.mpr fun hstore => isStore_not_gemm hstore hgemm)).2.2⟩
  cases handleExInstQueue_executes hd with
  | wait blocked => exact h
  | vector queue ready notGemm alloc => exact absurd (hgemm queue).1 notGemm
  | @gemm front rest e queue ready isGemm alloc =>
    obtain ⟨s, hs, alloc⟩ := Option.bind_eq_some_iff.mp alloc
    obtain rfl := Option.some.inj alloc
    have hcounted := counted_allocIn (hgemm queue).2 h.counted hs
    have hcomputing : (c.computePipeline ++ [timed config c front] ++ rest).map Instruction.untimed =
        c.computing := by
      unfold computing
      rw [queue, List.append_assoc, List.map_append, List.map_append, List.map_append]
      rfl
    have hfin : lastOf ((c.computePipeline ++ [timed config c front] ++ rest).map
        Instruction.untimed ++ c.stInstQueue.reduceOption) = c.finishing := by
      rw [hcomputing]
      rfl
    rw [setBuffer_eq] at hcounted ⊢
    refine ⟨h.order, h.vector, ?_, ?_, ?_, ?_, ?_⟩
    · exact fun x hx => h.computes x (hcomputing ▸ hx)
    · intro l hl
      obtain ⟨hsize, hawait⟩ := h.loads l hl
      exact ⟨hsize, fun hspad hne => (hawait hspad hne).mono fun o ho => hfin ▸ ho⟩
    · have hanchored := h.anchored
      rw [← hcomputing] at hanchored
      exact hanchored
    · refine hcounted.perm ?_
      unfold outstanding
      rw [List.map_append, ← List.append_assoc]
      exact (List.perm_append_singleton _ _).symm
    · exact fun m hm hspad => (h.reads m hm hspad).mono fun o ho => hfin ▸ ho

/-! ## Stores -/

/-- The store at the front of the queue is executed, or is lost. -/
theorem Sheltered.handleStInstQueue (h : Sheltered memory c)
    (hd : Core.handleStInstQueue config c = some d) : Sheltered memory d := by
  rcases handleStInstQueue_effect hd with ⟨rfl, -⟩ | ⟨x, rest, hq, -, rfl⟩ |
    ⟨x, rest, n, fin, hq, -, hd⟩
  · exact h
  · have hfin : ∀ o ∈ lastOf (c.computing ++ (none :: rest).reduceOption), o ∈ c.finishing := by
      intro o ho
      obtain ⟨y, hy, hlast⟩ := mem_lastOf.mp ho
      refine mem_lastOf.mpr ⟨y, ?_, hlast⟩
      rw [hq]
      rcases List.mem_append.mp hy with hy | hy
      · exact List.mem_append_left _ hy
      · exact List.mem_append_right _ (List.mem_cons_of_mem _ hy)
    refine ⟨h.order, h.vector, h.computes, fun l hl => ?_, h.anchored, h.counted, ?_⟩
    · obtain ⟨hsize, hawait⟩ := h.loads l hl
      exact ⟨hsize, fun hspad hne => (hawait hspad hne).mono hfin⟩
    · exact fun m hm hspad => (h.reads m hm hspad).mono hfin
  · have hreads : d.unanswered memory = c.unanswered memory := unanswered_of_writes (by rw [hd])
    have hfin : c.finishing.Perm (lastOf [x] ++ lastOf (c.computing ++ rest.reduceOption)) := by
      unfold finishing
      rw [hq, ← lastOf_append]
      exact lastOf_perm List.perm_middle
    have hcounted : Scoreboard.Counted SramEntry.valid SramEntry.remainReqCount c.entry
        (d.outstanding memory) := by
      unfold outstanding
      rw [hreads, hd]
      exact h.counted
    rw [hd] at hreads hcounted ⊢
    refine ⟨?_, h.vector, h.computes, ?_, h.anchored.marked, hcounted, ?_⟩
    · refine List.forall_mem_map.mpr fun t ht => ?_
      rw [mark_instructions]
      exact h.order t ht
    · intro l hl
      obtain ⟨hsize, hawait⟩ := h.loads l hl
      exact ⟨hsize, fun hspad hne => (hawait hspad hne).marked hfin⟩
    · exact fun m hm hspad => (h.reads m (hreads ▸ hm) hspad).marked hfin

theorem Sheltered.handlePipelines (h : Sheltered memory c)
    (hd : Core.handlePipelines config c = some d) : Sheltered memory d := by
  rw [handlePipelines_eq] at hd
  obtain ⟨e, he, hd⟩ := Option.bind_eq_some_iff.mp hd
  obtain ⟨f, hf, hd⟩ := Option.bind_eq_some_iff.mp hd
  rw [beforeExecute_eq] at he
  obtain ⟨e', he', he⟩ := Option.bind_eq_some_iff.mp he
  exact (((h.finishPipelines he').handleLdInstQueue he).handleExInstQueue hf).handleStInstQueue hd

/-! ## The issue loop -/

section Issue

variable {i : Nat} {t t' : Tile} {inst : Instruction} {insts : List Instruction} {tiles : List Tile}
  {fin fin' : List (Option TilePtr)} {slot : Slot}

/-- One tile changes, the others are still there. -/
theorem eq_or_mem_set (ht : tiles[i]? = some t) (t' : Tile) {u : Tile} (hu : u ∈ tiles) :
    u = t ∨ u ∈ tiles.set i t' := by
  obtain ⟨j, hj⟩ := List.mem_iff_getElem?.mp hu
  by_cases hij : i = j
  · subst hij
    exact .inl (Option.some.inj (hj.symm.trans ht))
  · exact .inr (List.mem_of_getElem? (by rw [List.getElem?_set_ne hij]; exact hj))

theorem mem_set_self (ht : tiles[i]? = some t) (t' : Tile) : t' ∈ tiles.set i t' :=
  List.mem_set (List.getElem?_eq_some_iff.mp ht).1 t'

theorem Awaited.set (h : Awaited tiles fin slot) (ht : tiles[i]? = some t)
    (hnew : Awaits fin t slot → Awaits fin' t' slot)
    (hother : ∀ u ∈ tiles, Awaits fin u slot → Awaits fin' u slot) :
    Awaited (tiles.set i t') fin' slot := by
  obtain ⟨u, hu, hawaits⟩ := h
  rcases eq_or_mem_set ht t' hu with rfl | hmem
  · exact ⟨t', mem_set_self ht t', hnew hawaits⟩
  · exact ⟨u, hmem, hother u hu hawaits⟩

/-- The front instruction of a tile waits. -/
theorem Sheltered.prepared (h : Sheltered memory c) (ht : c.tiles[i]? = some t)
    (hinsts : t.instructions = inst :: insts) :
    Sheltered memory
      { c with tiles := c.tiles.set i { t with instructions := prepare t inst :: insts } } := by
  have hsame := prepare_same t inst
  have hnew : ∀ slot, Awaits c.finishing t slot →
      Awaits c.finishing { t with instructions := prepare t inst :: insts } slot := by
    rintro slot ⟨hbuffer, hwait⟩
    refine ⟨hbuffer, ?_⟩
    rw [hinsts] at hwait
    rcases hwait with ⟨k, hk, hread⟩ | hlast | ⟨hnil, -⟩
    · rcases List.mem_cons.mp hk with rfl | hk
      · exact .inl ⟨_, List.mem_cons_self, hsame.reads.mpr hread⟩
      · exact .inl ⟨k, List.mem_cons_of_mem _ hk, hread⟩
    · rw [hinsts] at hlast
      exact .inr (.inl (hsame.endsIn.mpr hlast))
    · rw [hinsts] at hnil
      cases hnil
  refine ⟨fun u hu => ?_, h.vector, h.computes, fun l hl => ?_, ?_, h.counted, ?_⟩
  · rcases List.mem_or_eq_of_mem_set hu with hu | rfl
    · exact h.order u hu
    · have horder := h.order t (List.mem_of_getElem? ht)
      rw [hinsts] at horder
      exact ⟨hsame.precedes horder.1, horder.2⟩
  · obtain ⟨hsize, hawait⟩ := h.loads l hl
    exact ⟨hsize, fun hspad hne => (hawait hspad hne).set ht (hnew _) fun _ _ hu => hu⟩
  · refine h.anchored.imp fun u hu x post _ hx => ?_
    rcases eq_or_mem_set ht { t with instructions := prepare t inst :: insts } hu with rfl | hmem
    · refine ⟨_, mem_set_self ht _, hx.1, hx.2.1, ?_⟩
      have hanchor := hx.2.2
      rw [hinsts] at hanchor
      rcases hanchor with ⟨k, hk, hstore, hdest⟩ | hlast | hlast
      · rcases List.mem_cons.mp hk with rfl | hk
        · refine .inl ⟨_, List.mem_cons_self, ?_, hsame.destAddr.trans hdest⟩
          rw [hsame.opcode]
          exact hstore
        · exact .inl ⟨k, List.mem_cons_of_mem _ hk, hstore, hdest⟩
      · exact .inr (.inl (hsame.endsIn.mpr hlast))
      · exact .inr (.inr hlast)
    · exact ⟨u, hmem, hx⟩
  · exact fun m hm hspad => (h.reads m hm hspad).set ht (hnew _) fun _ _ hu => hu

/-- A tile that ends in a load never finishes: not when the load itself is issued either. -/
theorem endless_of_endsIn (hend : EndsIn IsLoad (inst :: insts)) (hflag : t.instFinished = false)
    (hnot : some t.ptr ∉ fin) (hload : IsLoad inst.opcode → fin' = fin) :
    Endless fin' { t with instructions := insts } := by
  rcases endsIn_cons.mp hend with ⟨rfl, hlast⟩ | hend
  · exact .inr ⟨rfl, hflag, hload hlast ▸ hnot⟩
  · exact .inl hend

/-- The front instruction of the tile is issued, and is not the one that reads the operand. -/
theorem Awaits.issued (h : Awaits fin t slot) (hinsts : t.instructions = inst :: insts)
    (hflag : t.instFinished = false) (hnot : some t.ptr ∉ fin)
    (hload : IsLoad inst.opcode → fin' = fin) (hread : ¬ inst.Reads slot.addr) :
    Awaits fin' { t with instructions := insts } slot := by
  refine ⟨h.1, ?_⟩
  rcases h.2 with ⟨k, hk, hk'⟩ | hlast | ⟨hnil, -⟩
  · rw [hinsts] at hk
    rcases List.mem_cons.mp hk with rfl | hk
    · exact absurd hk' hread
    · exact .inl ⟨k, hk, hk'⟩
  · rw [hinsts] at hlast
    exact .inr (endless_of_endsIn hlast hflag hnot hload)
  · rw [hinsts] at hnil
    cases hnil

/-- The front instruction of the tile is issued, and is not the store of this result. -/
theorem AnchoredBy.issued {x : Instruction} {post post' : List Instruction} (h : AnchoredBy t x post)
    (hinsts : t.instructions = inst :: insts)
    (hstore : isStore inst.opcode → inst.destAddr ≠ x.destAddr) (hsub : ∀ y ∈ post, y ∈ post')
    (hlast : IsGemm inst.opcode → insts = [] → some t.ptr ∈ lastOf post') :
    AnchoredBy { t with instructions := insts } x post' := by
  obtain ⟨howner, hfrom, hanchor⟩ := h.mono hsub
  refine ⟨howner, hfrom, ?_⟩
  rw [hinsts] at hanchor
  rcases hanchor with ⟨k, hk, hk', hdest⟩ | hend | hmem
  · rcases List.mem_cons.mp hk with rfl | hk
    · exact absurd hdest (hstore hk')
    · exact .inl ⟨k, hk, hk', hdest⟩
  · rcases endsIn_cons.mp hend with ⟨hnil, hgemm⟩ | hend
    · refine .inr (.inr ?_)
      obtain ⟨y, hy, hlast⟩ := mem_lastOf.mp (hlast hgemm hnil)
      exact mem_lastOf.mpr ⟨y, List.mem_cons_of_mem _ hy, hlast⟩
    · exact .inr (.inl hend)
  · exact .inr (.inr hmem)

theorem Idle.finishing_eq (h : Idle c) (hvector : c.vectorPipeline = []) :
    c.finishing = c.pendingLast := by
  rw [h.pendingLast, hvector, List.append_nil]
  unfold finishing computing
  rw [h.exInstQueue, h.stInstQueue, List.append_nil, List.reduceOption_nil, List.append_nil,
    lastOf_untimed]

/-- For an entry that is valid no fill is outstanding. -/
theorem Sheltered.not_valid (h : Sheltered memory c) (hslot : slot ∈ c.outstanding memory) :
    ¬ c.Valid slot := by
  rintro ⟨e, he, hvalid⟩
  exact h.counted.not_mem he hvalid hslot

theorem Idle.slot_mem {x : Instruction} (h : Idle c) (hx : x ∈ c.computing) :
    x.slot ∈ c.outstanding memory := by
  unfold computing at hx
  rw [h.exInstQueue, List.append_nil] at hx
  obtain ⟨z, hz, rfl⟩ := List.mem_map.mp hx
  exact List.mem_append_right _ (List.mem_map_of_mem (f := (·.slot)) hz)

/-- The issue loop issues the front instruction of a tile. -/
theorem Sheltered.issued (h : Sheltered memory c) (hidle : Idle c)
    (hhoused : Housed c.tiles c.pendingLast) (ht : c.tiles[i]? = some t)
    (hinsts : t.instructions = inst :: insts) (hq : Checked config c (prepare t inst) d) :
    Sheltered memory
      { d with tiles := c.tiles.set i { t with instructions := insts }, tileRr := i } := by
  have hmem := List.mem_of_getElem? ht
  have hsame := prepare_same t inst
  obtain ⟨howner, hfrom⟩ := prepare_from t inst
  have hprec := h.order t hmem
  rw [hinsts] at hprec
  obtain ⟨hprec, hrest⟩ := hprec
  have hlast := hhoused.lastOf_prepare ht hinsts
  have hfinish := hhoused.finish t hmem
  have hne : t.instructions ≠ [] := hinsts ▸ List.cons_ne_nil inst insts
  rw [← hidle.finishing_eq h.vector, if_neg hne] at hfinish
  have hflag : t.instFinished = false := by
    refine Bool.eq_false_iff.mpr fun hflag => ?_
    rw [if_pos hflag] at hfinish
    omega
  have hnot : some t.ptr ∉ c.finishing := List.count_eq_zero.mp (by omega)
  have horder : ∀ u ∈ c.tiles.set i { t with instructions := insts }, InOrder u.instructions := by
    intro u hu
    rcases List.mem_or_eq_of_mem_set hu with hu | rfl
    · exact h.order u hu
    · exact hrest
  -- the other tiles: one that is about to finish has another pointer
  have hothers : ∀ fin' : List (Option TilePtr),
      (∀ o ∈ fin', o ∈ c.finishing ∨ o ∈ lastOf [prepare t inst]) →
      ∀ (slot : Slot), ∀ u ∈ c.tiles, Awaits c.finishing u slot → Awaits fin' u slot := by
    rintro fin' hfin' slot u hu ⟨hbuffer, hwait⟩
    refine ⟨hbuffer, hwait.imp_right fun hend => hend.imp_right fun ⟨hnil, hflag, hnot⟩ => ?_⟩
    refine ⟨hnil, hflag, fun hmem' => ?_⟩
    rcases hfin' _ hmem' with hfin | hnew
    · exact hnot hfin
    · rw [hlast] at hnew
      split at hnew
      · have hptr := Option.some.inj (List.mem_singleton.mp hnew)
        obtain rfl := List.inj_on_of_nodup_map hhoused.ptrs hu hmem hptr
        rw [hinsts] at hnil
        cases hnil
      · cases hnew
  have hreads : ∀ fin' : List (Option TilePtr),
      (∀ o ∈ fin', o ∈ c.finishing ∨ o ∈ lastOf [prepare t inst]) →
      (IsLoad inst.opcode → fin' = c.finishing) →
      (∀ m ∈ c.unanswered memory, m.slot.accum = false → t.spadId = m.slot.bufferId →
        ¬ inst.Reads m.slot.addr) →
      ∀ m ∈ c.unanswered memory, m.slot.accum = false →
        Awaited (c.tiles.set i { t with instructions := insts }) fin' m.slot := by
    intro fin' hfin' hload hread m hm hspad
    refine (h.reads m hm hspad).set ht (fun hawaits => ?_) (hothers fin' hfin' _)
    exact hawaits.issued hinsts hflag hnot hload (hread m hm hspad hawaits.1)
  have hanchored : (isStore inst.opcode → ∀ x ∈ c.computing, x.From t →
        inst.destAddr ≠ x.destAddr) → ¬ IsGemm inst.opcode →
      Anchored (c.tiles.set i { t with instructions := insts }) c.computing := by
    intro hstore hgemm
    refine h.anchored.imp fun u hu x post hsub hx => ?_
    rcases eq_or_mem_set ht { t with instructions := insts } hu with rfl | hmem
    · refine ⟨_, mem_set_self ht _, hx.issued hinsts ?_ (fun y hy => hy) ?_⟩
      · exact fun hop => hstore hop x (hsub x List.mem_cons_self) hx.2.1
      · exact fun hop => absurd hop hgemm
    · exact ⟨u, hmem, hx⟩
  cases hq with
  | ld opcode free remain =>
    have hop : IsLoad inst.opcode := hsame.opcode ▸ opcode
    have hgemm : ¬ IsGemm inst.opcode := fun hgemm => isGemm_not_load hgemm hop
    refine ⟨horder, h.vector, h.computes, ?_, hanchored (fun hstore => ?_) hgemm, h.counted, ?_⟩
    · intro l hl
      rw [hidle.ldInstQueue] at hl
      obtain rfl := List.mem_singleton.mp hl
      refine ⟨?_, fun hspad hne => ?_⟩
      · rw [hsame.size, hsame.srcAddrs]
        rcases hprec.plain with hplain | hplain | hplain
        · exact hplain.2
        · exact absurd hop (by rintro hop; rw [hop] at hplain; cases hplain)
        · exact absurd hplain.1 hgemm
      · refine ⟨_, mem_set_self ht _, ?_, ?_⟩
        · unfold Instruction.slot Instruction.bufferId
          rw [hspad]
          exact hfrom.1.symm
        · rw [hsame.toAccum] at hspad
          rw [hsame.srcAddrs] at hne
          rw [show (prepare t inst).slot.addr = inst.destAddr from hsame.destAddr]
          exact (hprec.load hop hspad hne).imp_right fun hend =>
            endless_of_endsIn hend hflag hnot fun _ => rfl
    · rw [hop] at hstore
      cases hstore
    · exact hreads _ (fun o ho => .inl ho) (fun _ => rfl) fun _ _ _ _ hread => hgemm hread.1
  | st opcode valid =>
    have hop : isStore inst.opcode := hsame.opcode ▸ opcode
    have hgemm : ¬ IsGemm inst.opcode := isStore_not_gemm hop
    refine ⟨horder, h.vector, h.computes, ?_, hanchored ?_ hgemm, h.counted, ?_⟩
    · intro l hl
      have hnil : l ∈ c.ldInstQueue := hl
      rw [hidle.ldInstQueue] at hnil
      cases hnil
    · rintro - x hx hxt hdest
      refine h.not_valid (hidle.slot_mem hx) ?_
      rwa [hxt.slot_eq hfrom (hdest.symm.trans hsame.destAddr.symm)]
    · refine hreads _ ?_ ?_ fun _ _ _ _ hread => hgemm hread.1
      · intro o ho
        have ho' : o ∈ lastOf (c.computing ++ [prepare t inst]) := by
          rw [hidle.stInstQueue] at ho
          exact ho
        rw [lastOf_append] at ho'
        refine (List.mem_append.mp ho').imp_left fun hmem => ?_
        unfold finishing
        rw [lastOf_append]
        exact List.mem_append_left _ hmem
      · intro hload
        rw [hload] at hop
        cases hop
  | ex load store ready =>
    have hplain := hprec.plain.gemm (fun hload => load (hsame.opcode.trans hload))
      (hsame.opcode ▸ store)
    have hgemm : IsGemm (prepare t inst).opcode := by
      rw [hsame.opcode]
      exact hplain.1
    have hcomputing : (c.computePipeline ++ (c.exInstQueue ++ [prepare t inst])).map
        Instruction.untimed = c.computing ++ [(prepare t inst).untimed] := by
      unfold computing
      rw [← List.append_assoc, List.map_append]
      rfl
    have hlast' : insts = [] → some t.ptr ∈ lastOf [(prepare t inst).untimed] := by
      intro hnil
      rw [show lastOf [(prepare t inst).untimed] = lastOf [prepare t inst] from lastOf_untimed [_],
        hlast, if_pos hnil]
      exact List.mem_singleton_self _
    refine ⟨horder, h.vector, ?_, ?_, ?_, h.counted, ?_⟩
    · intro x hx
      have hx' : x ∈ (c.computePipeline ++ (c.exInstQueue ++ [prepare t inst])).map
          Instruction.untimed := hx
      rw [hcomputing] at hx'
      rcases List.mem_append.mp hx' with hx | hx
      · exact h.computes x hx
      · obtain rfl := List.mem_singleton.mp hx
        exact ⟨hgemm, hsame.plain hprec.plain⟩
    · intro l hl
      have hnil : l ∈ c.ldInstQueue := hl
      rw [hidle.ldInstQueue] at hnil
      cases hnil
    · refine (congrArg (Anchored _) hcomputing).mpr (h.anchored.snoc ?_ ?_)
      · intro u hu x post hsub hx
        rcases eq_or_mem_set ht { t with instructions := insts } hu with rfl | hmem
        · refine ⟨_, mem_set_self ht _, hx.issued hinsts ?_ ?_ ?_⟩
          · intro hstore
            rw [hsame.opcode, hstore] at store
            cases store
          · exact fun y hy => List.mem_append_left _ hy
          · intro _ hnil
            rw [lastOf_append]
            exact List.mem_append_right _ (hlast' hnil)
        · exact ⟨u, hmem, hx.mono fun y hy => List.mem_append_left _ hy⟩
      · refine ⟨_, mem_set_self ht _, howner, hfrom, ?_⟩
        rcases hprec.compute hplain.1 with ⟨k, hk, hstore, hdest⟩ | hend
        · exact .inl ⟨k, hk, hstore, hdest.trans hsame.destAddr.symm⟩
        · rcases endsIn_cons.mp hend with ⟨hnil, -⟩ | hend
          · exact .inr (.inr (hlast' hnil))
          · exact .inr (.inl hend)
    · refine hreads _ ?_ ?_ ?_
      · intro o ho
        have ho' : o ∈ lastOf (c.computing ++ [(prepare t inst).untimed] ++
            c.stInstQueue.reduceOption) := hcomputing ▸ ho
        rw [lastOf_append, lastOf_append, List.mem_append, List.mem_append] at ho'
        unfold finishing
        rw [lastOf_append, List.mem_append]
        rcases ho' with (ho' | ho') | ho'
        · exact .inl (.inl ho')
        · exact .inr (by rwa [← lastOf_untimed [prepare t inst]])
        · exact .inl (.inr ho')
      · exact fun hload => absurd hload (isGemm_not_load hplain.1)
      · rintro m hm hspad hbuffer ⟨-, haddr⟩
        have hvalid := (operandsReady_iff (hsame.srcFromAccum.trans hplain.2.1)).mp
          (Bool.and_eq_true_iff.mp ready).1 m.slot.addr (hsame.srcAddrs ▸ haddr)
        have hslot : (⟨false, (prepare t inst).spadId, m.slot.addr⟩ : Slot) = m.slot := by
          rw [hfrom.1, hbuffer, ← hspad]
        rw [hslot] at hvalid
        exact h.not_valid (List.mem_append_left _ (List.mem_map_of_mem hm)) hvalid

end Issue

/-! ## A cycle -/

/-- A tile that is ready shelters nothing. -/
theorem Sheltered.retire (h : Sheltered memory c) (hhoused : Housed c.tiles c.pendingLast) :
    Sheltered memory c.retire := by
  rcases retire_cases c with hr | ⟨i, t, -, ht, hready, hr⟩
  · rw [hr]
    exact h
  · rw [hr]
    have hmem := List.mem_of_getElem? ht
    have hkept : ∀ u ∈ c.tiles, ¬ u.ready → u ∈ c.tiles.eraseIdx i := by
      intro u hu hnot
      refine Housed.mem_eraseIdx_of_ne ht hu ?_
      rintro rfl
      exact hnot hready
    have hawaited : ∀ slot, Awaited c.tiles c.finishing slot →
        Awaited (c.tiles.eraseIdx i) c.finishing slot := by
      rintro slot ⟨u, hu, hawaits⟩
      exact ⟨u, hkept u hu hawaits.not_ready, hawaits⟩
    refine ⟨fun u hu => h.order u (List.mem_of_mem_eraseIdx hu), h.vector, h.computes, fun l hl => ?_,
      ?_, h.counted, fun m hm hspad => hawaited _ (h.reads m hm hspad)⟩
    · obtain ⟨hsize, hawait⟩ := h.loads l hl
      exact ⟨hsize, fun hspad hne => hawaited _ (hawait hspad hne)⟩
    · refine h.anchored.imp fun u hu x post hsub hx => ⟨u, hkept u hu ?_, hx⟩
      refine hx.not_ready hhoused hu fun o ho => ?_
      obtain ⟨y, hy, hlast⟩ := mem_lastOf.mp ho
      obtain ⟨z, hz, rfl⟩ := List.mem_map.mp (hsub y hy)
      refine mem_lastOf.mpr ⟨z, ?_, hlast⟩
      rcases List.mem_append.mp hz with hz | hz
      · exact List.mem_append_left _ (List.mem_append_left _ hz)
      · exact List.mem_append_right _ (List.mem_append_left _ (List.mem_append_right _ hz))

theorem Sheltered.beforeRetirement (h : Sheltered memory c) (hsound : Sound config c)
    (hd : beforeRetirement config c = some d) : Sheltered memory d := by
  obtain ⟨e, he, hd⟩ := beforeRetirement_eq_some hd
  obtain ⟨hsound, hidle⟩ := hsound.handlePipelines he
  have hsheltered := h.handlePipelines he
  unfold issueInstructions at hd
  have hloop := issueFrom_once
    (P := fun c => Idle c ∧ Housed c.tiles c.pendingLast ∧ Sheltered memory c)
    (Q := Sheltered memory) ?_ ?_ ?_ hd
  · exact hloop.elim (fun h => h.2.2) fun h => h
  · rintro c i t inst insts ⟨hidle, hhoused, hsheltered⟩ ht hinsts
    exact ⟨⟨hidle.ldInstQueue, hidle.exInstQueue, hidle.stInstQueue⟩, hhoused.prepared ht hinsts,
      hsheltered.prepared ht hinsts⟩
  · rintro c i t inst insts q ⟨hidle, hhoused, hsheltered⟩ ht hinsts hq
    exact hsheltered.issued hidle hhoused ht hinsts hq
  · exact ⟨⟨hidle.ldInstQueue, hidle.exInstQueue, hidle.stInstQueue⟩, hsound.housed,
      ⟨hsheltered.order, hsheltered.vector, hsheltered.computes, hsheltered.loads,
        hsheltered.anchored, hsheltered.counted, hsheltered.reads⟩⟩

theorem Sheltered.cycle (h : Sheltered memory c) (hsound : Sound config c)
    (hd : cycle config c = some d) : Sheltered memory d := by
  obtain ⟨e, he, hd⟩ := Option.bind_eq_some_iff.mp hd
  obtain rfl := Option.some.inj hd
  exact (h.beforeRetirement hsound he).retire (hsound.beforeRetirement he).housed

/-! ## The other steps -/

/-- `Core::issue` flushes no buffer of a running tile, so what it flushes waits at most for an answer
to a load into the accumulator. -/
theorem Sheltered.not_flushed {op : Tile} (h : Sheltered memory c) (hissue : c.canIssue) {slot : Slot}
    (hslot : slot ∈ c.outstanding memory) (hflush : c.flushes op slot.accum slot.bufferId) :
    ∃ m ∈ c.unanswered memory, m.slot = slot ∧ slot.accum = true := by
  rcases List.mem_append.mp hslot with hslot | hslot
  · obtain ⟨m, hm, rfl⟩ := List.mem_map.mp hslot
    cases haccum : m.slot.accum with
    | true => exact ⟨m, hm, rfl, rfl⟩
    | false =>
      obtain ⟨t, ht, hbuffer, -⟩ := h.reads m hm haccum
      rw [haccum, ← hbuffer, (flushes_of_mem op hissue ht).1] at hflush
      cases hflush
  · obtain ⟨x, hx, rfl⟩ := List.mem_map.mp hslot
    have hmem : x.untimed ∈ c.computing := List.mem_map_of_mem (List.mem_append_left _ hx)
    obtain ⟨t, ht, -, hspad, haccum⟩ := h.anchored.exists_tile hmem
    have hspad : x.spadId = t.spadId := hspad
    have haccum : x.accumSpadId = t.accumSpadId := haccum
    obtain ⟨hkept, hkept'⟩ := flushes_of_mem op hissue ht
    unfold Instruction.slot Instruction.bufferId at hflush
    cases hto : x.toAccum with
    | true =>
      simp only [hto, if_true, haccum, hkept', Bool.false_eq_true] at hflush
    | false =>
      simp only [hto, Bool.false_eq_true, if_false, hspad, hkept] at hflush

theorem Sheltered.issue {op : Tile} (h : Sheltered memory c) (hissue : c.canIssue)
    (horder : InOrder op.instructions)
    (hanswered : ∀ m ∈ c.unanswered memory, m.slot.accum = true →
      ¬ c.flushes op true m.slot.bufferId) : Sheltered memory (c.issue op) := by
  have hspec := issue_spec c op
  have hpipes := issue_pipes c op
  have hcomputing : (c.issue op).computing = c.computing := by
    unfold computing
    rw [hpipes.computePipeline, hpipes.exInstQueue]
  have hfin : (c.issue op).finishing = c.finishing := by
    unfold finishing
    rw [hcomputing, hspec.stInstQueue]
  have hreads : (c.issue op).unanswered memory = c.unanswered memory := by
    unfold unanswered
    rw [hspec.requestQueue]
  have hkept : ∀ t ∈ c.tiles, t ∈ (c.issue op).tiles := by
    intro t ht
    rw [issue_tiles_eq]
    split
    · exact ht
    · exact List.mem_append_left _ ht
  have hawaited : ∀ slot, Awaited c.tiles c.finishing slot →
      Awaited (c.issue op).tiles (c.issue op).finishing slot := by
    rintro slot ⟨t, ht, hawaits⟩
    exact ⟨t, hkept t ht, hfin ▸ hawaits⟩
  refine ⟨?_, (issue_vectorPipeline c op).trans h.vector, hcomputing ▸ h.computes, ?_, ?_, ?_, ?_⟩
  · intro t ht
    rw [issue_tiles_eq] at ht
    split at ht
    · exact h.order t ht
    · rcases List.mem_append.mp ht with ht | ht
      · exact h.order t ht
      · obtain rfl := List.mem_singleton.mp ht
        exact horder
  · rw [hspec.ldInstQueue]
    intro l hl
    obtain ⟨hsize, hawait⟩ := h.loads l hl
    exact ⟨hsize, fun hspad hne => hawaited _ (hawait hspad hne)⟩
  · rw [hcomputing]
    exact h.anchored.imp fun t ht x post _ hx => ⟨t, hkept t ht, hx⟩
  · have hout : (c.issue op).outstanding memory = c.outstanding memory := by
      unfold outstanding
      rw [hreads, hpipes.computePipeline]
    rw [hout]
    refine h.counted.flush fun slot => ?_
    rw [issue_entry]
    split
    · rename_i hflush
      refine .inr ⟨rfl, fun hslot => ?_⟩
      obtain ⟨m, hm, rfl, haccum⟩ := h.not_flushed hissue hslot hflush
      exact hanswered m hm haccum (haccum ▸ hflush)
    · exact .inl rfl
  · rw [hreads]
    exact fun m hm hspad => hawaited _ (h.reads m hm hspad)

/-- Requests move to the memory, and nothing else changes. -/
theorem Sheltered.moved {memory' : List MemoryAccess} (h : Sheltered memory c)
    (htiles : d.tiles = c.tiles) (hcompute : d.computePipeline = c.computePipeline)
    (hvector : d.vectorPipeline = c.vectorPipeline) (hld : d.ldInstQueue = c.ldInstQueue)
    (hst : d.stInstQueue = c.stInstQueue) (hex : d.exInstQueue = c.exInstQueue)
    (hspad : d.spad = c.spad) (hacc : d.accSpad = c.accSpad)
    (hreads : (c.unanswered memory).Perm (d.unanswered memory')) : Sheltered memory' d := by
  have hcomputing : d.computing = c.computing := by
    unfold computing
    rw [hcompute, hex]
  have hfin : d.finishing = c.finishing := by
    unfold finishing
    rw [hcomputing, hst]
  refine ⟨htiles ▸ h.order, hvector.trans h.vector, hcomputing ▸ h.computes, ?_, ?_, ?_, ?_⟩
  · rw [hld, htiles, hfin]
    exact h.loads
  · rw [htiles, hcomputing]
    exact h.anchored
  · rw [entry_congr hspad hacc]
    refine h.counted.perm ?_
    unfold outstanding
    rw [hcompute]
    exact (hreads.map _).append_right _
  · rw [htiles, hfin]
    exact fun m hm => h.reads m (hreads.symm.subset hm)

/-- A read is answered. -/
theorem Sheltered.answered {m : MemoryAccess} {memory' : List MemoryAccess} {s : Sram}
    (h : Sheltered memory c)
    (hs : (c.buffer m.slot.accum).fill m.slot.addr m.slot.bufferId = some s)
    (hreads : (c.unanswered memory).Perm (m :: c.unanswered memory')) :
    Sheltered memory' (c.setBuffer m.slot.accum s) := by
  have hout : (c.outstanding memory).Perm
      (m.slot :: ((c.unanswered memory').map (·.slot) ++ c.computePipeline.map (·.slot))) :=
    (hreads.map (·.slot)).append_right _
  have hcounted := counted_fill h.counted hs hout
  rw [setBuffer_eq] at hcounted ⊢
  exact ⟨h.order, h.vector, h.computes, h.loads, h.anchored, hcounted,
    fun m' hm' => h.reads m' (hreads.symm.subset (List.mem_cons_of_mem _ hm'))⟩

end Core

end OnnxSim
