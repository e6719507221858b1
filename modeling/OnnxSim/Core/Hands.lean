import OnnxSim.Core.Continuity

/-!
# From the issue loop to execution

The issue loop checks an instruction and puts it into a queue; the next call of `cycle` executes it. In
between a tile may be issued, which flushes buffers, answers arrive, and the pipelines move on. The check
still holds then, because the tile of the instruction runs all the while (`Core.AtHome`): it has more
instructions, or this one is its last and has not finished. So it is not retired, and `Core::issue`
flushes no buffer of a running tile.
-/

namespace OnnxSim

namespace Core

variable {config : SimulationConfig} {c d : Core} {x : Instruction}

/-! ## Tiles and their last instructions -/

/-- The addresses of the running tiles differ, and the flag of a tile is set once, by the last of its
instructions; `pending` has an entry for each last instruction that has been issued and has not
finished. -/
structure Housed (tiles : List Tile) (pending : List (Option TilePtr)) : Prop where
  ptrs : (tiles.map (·.ptr)).Nodup
  flags : ∀ t ∈ tiles, t.instructions.length = 1 ∨ ∀ k ∈ t.instructions, k.lastInst = false
  finish : ∀ t ∈ tiles, pending.count (some t.ptr) + (if t.instFinished then 1 else 0) +
    (if t.instructions = [] then 0 else 1) ≤ 1
  named : ∀ o ∈ pending, ∃ t ∈ tiles, o = some t.ptr

namespace Housed

variable {tiles : List Tile} {pending pending' : List (Option TilePtr)} {i : Nat} {t : Tile}

theorem perm (h : Housed tiles pending) (hperm : pending.Perm pending') : Housed tiles pending' := by
  refine ⟨h.ptrs, h.flags, fun u hu => ?_, fun o ho => h.named o (hperm.symm.subset ho)⟩
  rw [← hperm.count_eq]
  exact h.finish u hu

/-- An instruction is lost, or one that is not the last of its tile finishes. -/
theorem dropped (h : Housed tiles pending) (hperm : pending.Perm (lastOf [x] ++ pending')) :
    Housed tiles pending' := by
  refine ⟨h.ptrs, h.flags, fun u hu => ?_, fun o ho => ?_⟩
  · have hcount := hperm.count_eq (some u.ptr)
    rw [List.count_append] at hcount
    have hold := h.finish u hu
    omega
  · exact h.named o (hperm.symm.subset (List.mem_append_right _ ho))

/-- An instruction finishes. -/
theorem finished (h : Housed tiles pending) (hperm : pending.Perm (lastOf [x] ++ pending')) :
    Housed (tiles.map (mark x)) pending' := by
  refine ⟨?_, ?_, ?_, fun o ho => ?_⟩
  · rw [List.map_map, show (fun t : Tile => t.ptr) ∘ mark x = fun t => t.ptr from
      funext fun t => mark_ptr x t]
    exact h.ptrs
  · refine List.forall_mem_map.mpr fun u hu => ?_
    rw [mark_instructions]
    exact h.flags u hu
  · refine List.forall_mem_map.mpr fun u hu => ?_
    rw [mark_ptr, mark_instructions]
    exact mark_finish hperm (h.finish u hu)
  · obtain ⟨u, hu, rfl⟩ := h.named o (hperm.symm.subset (List.mem_append_right _ ho))
    exact ⟨mark x u, List.mem_map_of_mem hu, by rw [mark_ptr]⟩

/-- The tiles after a change of one of them: that one, and others at other addresses. -/
theorem mem_set (h : Housed tiles pending) (ht : tiles[i]? = some t) {t' u : Tile}
    (hu : u ∈ tiles.set i t') : u = t' ∨ u ∈ tiles ∧ u.ptr ≠ t.ptr := by
  obtain ⟨j, hj⟩ := List.mem_iff_getElem?.mp hu
  rw [List.getElem?_set] at hj
  split at hj
  · split at hj
    · exact .inl (Option.some.inj hj).symm
    · cases hj
  · rename_i hij
    refine .inr ⟨List.mem_of_getElem? hj, fun heq => hij ?_⟩
    have hi : (tiles.map (·.ptr))[i]? = some t.ptr := by rw [List.getElem?_map, ht]; rfl
    have hj' : (tiles.map (·.ptr))[j]? = some t.ptr := by rw [List.getElem?_map, hj, ← heq]; rfl
    exact (List.getElem?_inj (List.getElem?_eq_some_iff.mp hi).1 h.ptrs).mp (hi.trans hj'.symm)

/-- One tile changes; the others have no more instructions pending than before. -/
theorem set (h : Housed tiles pending) (ht : tiles[i]? = some t) {t' : Tile} (hptr : t'.ptr = t.ptr)
    (hflags : t'.instructions.length = 1 ∨ ∀ k ∈ t'.instructions, k.lastInst = false)
    (hfinish : pending'.count (some t.ptr) + (if t'.instFinished then 1 else 0) +
      (if t'.instructions = [] then 0 else 1) ≤ 1)
    (hother : ∀ p, p ≠ some t.ptr → pending'.count p = pending.count p) :
    Housed (tiles.set i t') pending' := by
  have hlt := (List.getElem?_eq_some_iff.mp ht).1
  have hptrs : (tiles.set i t').map (·.ptr) = tiles.map (·.ptr) := by
    rw [List.map_set]
    refine List.ext_getElem? fun j => ?_
    rw [List.getElem?_set]
    split
    · rename_i hij
      subst hij
      rw [List.length_map, if_pos hlt, List.getElem?_map, ht, hptr]
      rfl
    · rfl
  refine ⟨hptrs ▸ h.ptrs, fun u hu => ?_, fun u hu => ?_, fun o ho => ?_⟩
  · rcases h.mem_set ht hu with rfl | ⟨hu, -⟩
    · exact hflags
    · exact h.flags u hu
  · rcases h.mem_set ht hu with rfl | ⟨hu, hne⟩
    · rw [hptr]
      exact hfinish
    · rw [hother _ fun heq => hne (Option.some.inj heq)]
      exact h.finish u hu
  · by_cases hp : o = some t.ptr
    · exact ⟨t', List.mem_set hlt t', by rw [hp, hptr]⟩
    · have hmem : o ∈ pending := by
        rw [← List.count_pos_iff, ← hother o hp]
        exact List.count_pos_iff.mpr ho
      obtain ⟨u, hu, rfl⟩ := h.named o hmem
      have hu' : u.ptr ∈ (tiles.set i t').map (·.ptr) := hptrs ▸ List.mem_map_of_mem hu
      obtain ⟨v, hv, heq⟩ := List.mem_map.mp hu'
      exact ⟨v, hv, by rw [heq]⟩

/-- The flag of an instruction in the list of a tile. -/
theorem lastOf_prepare (h : Housed tiles pending) (ht : tiles[i]? = some t)
    {inst : Instruction} {insts : List Instruction} (hinsts : t.instructions = inst :: insts) :
    lastOf [prepare t inst] = if insts = [] then [some t.ptr] else [] := by
  have hflags := h.flags t (List.mem_of_getElem? ht)
  unfold prepare
  rw [hinsts] at hflags ⊢
  cases insts with
  | nil => rfl
  | cons k rest =>
    rcases hflags with hlength | hflags
    · simp at hlength
    · rw [if_neg (by simp), if_neg (List.cons_ne_nil k rest)]
      exact lastOf_singleton_of_not (hflags inst List.mem_cons_self)

/-- The front instruction of a tile waits. -/
theorem prepared (h : Housed tiles pending) (ht : tiles[i]? = some t)
    {inst : Instruction} {insts : List Instruction} (hinsts : t.instructions = inst :: insts) :
    Housed (tiles.set i { t with instructions := prepare t inst :: insts }) pending := by
  have hmem := List.mem_of_getElem? ht
  have hflags := h.flags t hmem
  have hfinish := h.finish t hmem
  refine h.set ht rfl ?_ (by rw [hinsts] at hfinish; exact hfinish) fun _ _ => rfl
  rw [hinsts] at hflags
  cases insts with
  | nil => exact .inl rfl
  | cons k rest =>
    rcases hflags with hlength | hflags
    · simp at hlength
    · refine .inr fun k' hk' => ?_
      rcases List.mem_cons.mp hk' with rfl | hk'
      · unfold prepare
        rw [hinsts, if_neg (by simp)]
        exact hflags inst List.mem_cons_self
      · exact hflags k' (List.mem_cons_of_mem _ hk')

/-- The front instruction of a tile is issued. -/
theorem issued (h : Housed tiles pending) (ht : tiles[i]? = some t)
    {inst : Instruction} {insts : List Instruction} (hinsts : t.instructions = inst :: insts)
    (hperm : pending'.Perm (lastOf [prepare t inst] ++ pending)) :
    Housed (tiles.set i { t with instructions := insts }) pending' := by
  have hmem := List.mem_of_getElem? ht
  have hlast := h.lastOf_prepare ht hinsts
  have hflags := h.flags t hmem
  have hfinish := h.finish t hmem
  rw [hinsts] at hflags hfinish
  rw [if_neg (List.cons_ne_nil inst insts)] at hfinish
  have hcount : ∀ p, pending'.count p = (lastOf [prepare t inst]).count p + pending.count p :=
    fun p => by rw [hperm.count_eq, List.count_append]
  refine h.set ht rfl ?_ ?_ fun p hp => ?_
  · rcases hflags with hlength | hflags
    · have hnil : insts = [] := List.length_eq_zero_iff.mp (Nat.succ.inj hlength)
      subst hnil
      exact .inr fun k hk => absurd hk List.not_mem_nil
    · exact .inr fun k hk => hflags k (List.mem_cons_of_mem _ hk)
  · rw [hcount, hlast]
    by_cases hnil : insts = []
    · simp only [hnil, if_true, List.count_singleton_self]
      omega
    · simp only [hnil, if_false, List.count_nil]
      omega
  · rw [hcount, hlast]
    split
    · rw [List.count_singleton, if_neg (by simpa using Ne.symm hp), Nat.zero_add]
    · rw [List.count_nil, Nat.zero_add]

theorem mem_eraseIdx_of_ne (ht : tiles[i]? = some t) {u : Tile} (hu : u ∈ tiles) (hne : u ≠ t) :
    u ∈ tiles.eraseIdx i := by
  obtain ⟨j, hj⟩ := List.mem_iff_getElem?.mp hu
  refine List.mem_eraseIdx_iff_getElem?.mpr ⟨j, ?_, hj⟩
  rintro rfl
  exact hne (Option.some.inj (hj.symm.trans ht))

/-- A tile that is ready has finished its last instruction. -/
theorem not_mem_of_ready (h : Housed tiles pending) (ht : t ∈ tiles) (hready : t.ready) :
    some t.ptr ∉ pending := by
  have hflag : t.instFinished = true := (Bool.and_eq_true_iff.mp hready).2
  have hold := h.finish t ht
  rw [if_pos hflag] at hold
  exact List.count_eq_zero.mp (by omega)

/-- A tile that is ready is retired. -/
theorem retired (h : Housed tiles pending) (ht : tiles[i]? = some t) (hready : t.ready) :
    Housed (tiles.eraseIdx i) pending := by
  refine ⟨h.ptrs.sublist ((List.eraseIdx_sublist _ _).map _),
    fun u hu => h.flags u (List.mem_of_mem_eraseIdx hu),
    fun u hu => h.finish u (List.mem_of_mem_eraseIdx hu), fun o ho => ?_⟩
  obtain ⟨u, hu, rfl⟩ := h.named o ho
  refine ⟨u, mem_eraseIdx_of_ne ht hu ?_, rfl⟩
  rintro rfl
  exact h.not_mem_of_ready hu hready ho

/-- A tile at an address of its own, whose flags are as they were created, is issued. -/
theorem append (h : Housed tiles pending) (hptr : ∀ u ∈ tiles, u.ptr ≠ t.ptr)
    (hfinished : t.instFinished = false) (hlast : ∀ k ∈ t.instructions, k.lastInst = false) :
    Housed (tiles ++ [t]) pending := by
  refine ⟨?_, fun u hu => ?_, fun u hu => ?_, fun o ho => ?_⟩
  · rw [List.map_append, List.nodup_append]
    refine ⟨h.ptrs, List.nodup_singleton _, fun p hp q hq => ?_⟩
    obtain ⟨u, hu, rfl⟩ := List.mem_map.mp hp
    obtain rfl := List.mem_singleton.mp hq
    exact hptr u hu
  · rcases List.mem_append.mp hu with hu | hu
    · exact h.flags u hu
    · obtain rfl := List.mem_singleton.mp hu
      exact .inr hlast
  · rcases List.mem_append.mp hu with hu | hu
    · exact h.finish u hu
    · obtain rfl := List.mem_singleton.mp hu
      have hnone : some u.ptr ∉ pending := by
        intro hmem
        obtain ⟨v, hv, heq⟩ := h.named _ hmem
        exact hptr v hv (Option.some.inj heq).symm
      have hle : (if u.instructions = [] then 0 else 1) ≤ 1 := by split <;> omega
      rw [hfinished, if_neg Bool.false_ne_true, List.count_eq_zero.mpr hnone]
      omega
  · obtain ⟨u, hu, rfl⟩ := h.named o ho
    exact ⟨u, List.mem_append_left _ hu, rfl⟩

end Housed

/-! ## The tile of an instruction -/

/-- The tile that the instruction was issued from is running: it has more instructions, or this one is
its last. -/
def AtHome (tiles : List Tile) (x : Instruction) : Prop :=
  ∃ t ∈ tiles, x.owner = t.ptr ∧ x.From t ∧
    (t.instructions ≠ [] ∨ x.lastInst ∧ x.myTile = some t.ptr)

/-- As long as the instruction has not finished, its tile is not retired. -/
theorem AtHome.retired {tiles : List Tile} {pending : List (Option TilePtr)} {i : Nat} {t : Tile}
    (h : AtHome tiles x) (hhoused : Housed tiles pending) (ht : tiles[i]? = some t)
    (hready : t.ready) (hpending : ∀ o ∈ lastOf [x], o ∈ pending) : AtHome (tiles.eraseIdx i) x := by
  obtain ⟨u, hu, howner, hfrom, hleft⟩ := h
  refine ⟨u, Housed.mem_eraseIdx_of_ne ht hu ?_, howner, hfrom, hleft⟩
  rintro rfl
  rcases hleft with hleft | hlast
  · exact hleft (List.isEmpty_iff.mp (Bool.and_eq_true_iff.mp hready).1)
  · exact hhoused.not_mem_of_ready hu hready
      (hpending _ (mem_lastOf.mpr ⟨x, List.mem_cons_self, hlast⟩))

theorem AtHome.append {tiles : List Tile} (h : AtHome tiles x) (more : List Tile) :
    AtHome (tiles ++ more) x := by
  obtain ⟨t, ht, hleft⟩ := h
  exact ⟨t, List.mem_append_left _ ht, hleft⟩

/-- The instruction that the issue loop takes from a tile is at home there. -/
theorem AtHome.issued {tiles : List Tile} {i : Nat} {t : Tile} (ht : tiles[i]? = some t)
    {inst : Instruction} {insts : List Instruction} (hinsts : t.instructions = inst :: insts) :
    AtHome (tiles.set i { t with instructions := insts }) (prepare t inst) := by
  refine ⟨_, List.mem_set (List.getElem?_eq_some_iff.mp ht).1 _, ?_⟩
  unfold prepare Instruction.From
  rw [hinsts]
  cases insts with
  | nil => exact ⟨rfl, ⟨rfl, rfl⟩, .inr ⟨rfl, rfl⟩⟩
  | cons k rest =>
    rw [if_neg (by simp)]
    exact ⟨rfl, ⟨rfl, rfl⟩, .inl (List.cons_ne_nil k rest)⟩

/-! ## What keeps a check true -/

/-- The buffer is one of those that the instruction was given. -/
def Uses (x : Instruction) (accum : Bool) (b : Nat) : Prop :=
  b = if accum then x.accumSpadId else x.spadId

theorem uses_slot (x : Instruction) : Uses x x.slot.accum x.slot.bufferId := rfl

/-- What the issue loop finds out about `x` in `c` is so in `d` too: no entry has come, none has become
invalid, and the buffers and the pipelines have at least as much room. -/
structure Eases (x : Instruction) (c d : Core) : Prop where
  id : d.id = c.id
  free : ∀ slot, Uses x slot.accum slot.bufferId → c.entry slot = none → d.entry slot = none
  valid : ∀ slot, Uses x slot.accum slot.bufferId → c.Valid slot → d.Valid slot
  remain : ∀ a b size, Uses x a b → (c.buffer a).checkRemain size b → (d.buffer a).checkRemain size b
  compute : d.computePipeline.length ≤ c.computePipeline.length
  vector : c.vectorPipeline = [] → d.vectorPipeline = []

namespace Eases

theorem trans {e : Core} (h₁ : Eases x c d) (h₂ : Eases x d e) : Eases x c e where
  id := h₂.id.trans h₁.id
  free slot hx h := h₂.free slot hx (h₁.free slot hx h)
  valid slot hx h := h₂.valid slot hx (h₁.valid slot hx h)
  remain a b size hx h := h₂.remain a b size hx (h₁.remain a b size hx h)
  compute := h₂.compute.trans h₁.compute
  vector h := h₂.vector (h₁.vector h)

/-- The scratchpads are as before and the pipelines are no longer. -/
theorem of_eq (hid : d.id = c.id) (hspad : d.spad = c.spad) (hacc : d.accSpad = c.accSpad)
    (hcompute : d.computePipeline.length ≤ c.computePipeline.length)
    (hvector : c.vectorPipeline = [] → d.vectorPipeline = []) : Eases x c d := by
  have hbuffer : d.buffer = c.buffer := by
    funext a
    cases a
    · exact hspad
    · exact hacc
  have hentry : d.entry = c.entry := by
    funext slot
    unfold entry
    rw [hbuffer]
  refine ⟨hid, ?_, ?_, ?_, hcompute, hvector⟩
  · intro slot _ h
    rw [hentry, h]
  · intro slot _ h
    unfold Valid
    rw [hentry]
    exact h
  · intro a b size _ h
    rw [hbuffer]
    exact h

theorem refl (x : Instruction) (c : Core) : Eases x c c :=
  of_eq rfl rfl rfl (Nat.le_refl _) fun h => h

/-- A fill changes an entry that nobody could use yet. -/
theorem fill {slot : Slot} {s : Sram}
    (hs : (c.buffer slot.accum).fill slot.addr slot.bufferId = some s) :
    Eases x c (c.setBuffer slot.accum s) := by
  obtain ⟨e, he, hentry⟩ := entry_fill hs
  have hremain : ∀ a b size, ((c.setBuffer slot.accum s).buffer a).checkRemain size b =
      (c.buffer a).checkRemain size b := by
    intro a b size
    by_cases ha : a = slot.accum
    · subst ha
      obtain ⟨e', -, rfl⟩ := Sram.fill_table hs
      rw [buffer_setBuffer]
      rfl
    · unfold buffer setBuffer
      cases a <;> cases hslot : slot.accum <;> first | exact absurd hslot.symm ha | rfl
  refine ⟨?_, ?_, ?_, fun a b size _ h => (hremain a b size).trans h, ?_, ?_⟩
  · rw [setBuffer_eq]
  · intro other _ h
    have hne : other ≠ slot := by
      rintro rfl
      rw [he] at h
      cases h
    rw [hentry, Function.update_of_ne hne, h]
  · rintro other - hother
    have hne : other ≠ slot := by
      rintro rfl
      exact fill_waits hs hother
    unfold Valid
    rw [hentry, Function.update_of_ne hne]
    exact hother
  · rw [setBuffer_eq]
  · rw [setBuffer_eq]
    exact fun h => h

/-- The tile of the instruction is running, so its buffers are not flushed. -/
theorem issue {tiles : List Tile} (op : Tile) (hissue : c.canIssue) (htiles : c.tiles = tiles)
    (hhome : AtHome tiles x) : Eases x c (c.issue op) := by
  subst htiles
  obtain ⟨t, ht, -, hfrom, -⟩ := hhome
  have hkept : ∀ a b, Uses x a b → c.flushes op a b = false := by
    rintro a b rfl
    obtain ⟨hspad, hacc⟩ := flushes_of_mem op hissue ht
    cases a with
    | false => exact hfrom.1 ▸ hspad
    | true => exact hfrom.2 ▸ hacc
  have hentry : ∀ slot : Slot, Uses x slot.accum slot.bufferId →
      (c.issue op).entry slot = c.entry slot := by
    intro slot hx
    rw [issue_entry, hkept _ _ hx, if_neg Bool.false_ne_true]
  have hpipes := issue_pipes c op
  refine ⟨hpipes.id, fun slot hx h => (hentry slot hx).trans h, ?_, ?_, ?_, fun h =>
    (issue_vectorPipeline c op).trans h⟩
  · intro slot hx h
    unfold Valid
    rw [hentry slot hx]
    exact h
  · intro a b size hx h
    rw [issue_checkRemain c op (hkept a b hx)]
    exact h
  · rw [hpipes.computePipeline]

theorem checkHit (h : Eases x c d) (slot : Slot) (hx : Uses x slot.accum slot.bufferId)
    (hhit : (c.buffer slot.accum).checkHit slot.addr slot.bufferId) :
    (d.buffer slot.accum).checkHit slot.addr slot.bufferId :=
  (checkHit_iff slot).mpr (h.valid slot hx ((checkHit_iff slot).mp hhit))

theorem operandsReady (h : Eases x c d) (hready : c.operandsReady x) : d.operandsReady x := by
  unfold Core.operandsReady at hready ⊢
  rw [List.all_eq_true] at hready ⊢
  intro addr haddr
  have hhit := hready addr haddr
  split at hhit
  · rename_i hacc
    rw [if_pos hacc]
    exact h.checkHit ⟨true, x.accumSpadId, addr⟩ rfl hhit
  · rename_i hacc
    rw [if_neg hacc]
    exact h.checkHit ⟨false, x.spadId, addr⟩ rfl hhit

theorem canIssueCompute (h : Eases x c d) (hready : canIssueCompute config c x) :
    Core.canIssueCompute config d x := by
  unfold Core.canIssueCompute at hready ⊢
  obtain ⟨hops, hroom⟩ := Bool.and_eq_true_iff.mp hready
  refine Bool.and_eq_true_iff.mpr ⟨h.operandsReady hops, ?_⟩
  rw [h.id]
  split
  · rename_i hgemm
    rw [if_pos hgemm] at hroom
    exact decide_eq_true (Nat.lt_of_le_of_lt h.compute (of_decide_eq_true hroom))
  · rename_i hgemm
    rw [if_neg hgemm] at hroom
    exact List.isEmpty_iff.mpr (h.vector (List.isEmpty_iff.mp hroom))

end Eases

end Core

end OnnxSim
