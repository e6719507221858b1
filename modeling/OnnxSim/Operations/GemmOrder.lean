import OnnxSim.Core.Shelter
import OnnxSim.Operations.GemmProgram

/-!
# The order of the instructions of a matrix multiplication

Whatever the mapping, a program of `GemmWS` has its loads before its computes and these before its stores.
Each load into the scratchpad with anything to fetch has a compute that reads it, or there are no computes
and no stores at all; and each compute has a store of its result, unless the tile is not the last of its
reduction and ends with the computes (`GemmWS.inOrder`).
-/

namespace OnnxSim

section Lists

variable {p : Opcode → Prop}

theorem endsIn_of_forall {l : List Instruction} (hne : l ≠ []) (h : ∀ k ∈ l, p k.opcode) : EndsIn p l :=
  ⟨_, List.getLast?_eq_some_getLast hne, h _ (List.getLast_mem hne)⟩

/-- The instructions of a section precede the others of it, and those of the sections after it. -/
theorem inOrder_append {xs ys : List Instruction}
    (hxs : ∀ k post, (k :: post) <:+ xs → k.Precedes (post ++ ys)) (hys : InOrder ys) :
    InOrder (xs ++ ys) := by
  induction xs with
  | nil => exact hys
  | cons k xs ih =>
    refine ⟨hxs k xs (List.suffix_refl _), ih fun k' post hsuffix => ?_⟩
    exact hxs k' post (hsuffix.trans (List.suffix_cons k xs))

end Lists

namespace GemmWS

variable {op : GemmWS} {tile : Tile} {mapping : Mapping}

/-- What a program is made of. -/
theorem sections_of_some {is : List Instruction} (h : op.initializeInstructions tile mapping = some is) :
    0 < op.loopSize ∧ 0 < op.elemsPerAccess ∧ ∃ loads stores,
      (op.mSteps tile mapping).mapM (op.loads tile mapping) = some loads ∧
      (op.storeSteps tile mapping).mapM (fun p => op.movout tile mapping p.1 p.2) = some stores ∧
      is = loads.flatten ++ (op.mSteps tile mapping).flatMap (op.computes tile mapping) ++ stores := by
  unfold initializeInstructions at h
  split at h
  · cases h
  · obtain ⟨loads, hloads, h⟩ := Option.bind_eq_some_iff.mp h
    obtain ⟨stores, hstores, h⟩ := Option.bind_eq_some_iff.mp h
    rw [stores_eq] at hstores
    exact ⟨by omega, by omega, loads, stores, hloads, hstores, (Option.some.inj h).symm⟩

/-- The loads of a step. -/
theorem mem_loads_of_some {ms : Nat} {is : List Instruction} (h : op.loads tile mapping ms = some is)
    {i : Instruction} (hi : i ∈ is) : i = op.biasMovin tile mapping ms ∨
      (∃ cs ∈ cSteps mapping, op.weightMovin tile mapping ms cs = some i) ∨
      ms = 0 ∧ ∃ cs ∈ cSteps mapping, ∃ ns ∈ op.nSteps tile mapping,
        op.activationMovin tile mapping ns cs = some i := by
  obtain ⟨rest, hrest, h⟩ := Option.bind_eq_some_iff.mp h
  obtain rfl := Option.some.inj h
  rcases List.mem_append.mp hi with hi | hi
  · split at hi
    · exact .inl (List.mem_singleton.mp hi)
    · cases hi
  · obtain ⟨l, hl, hi⟩ := List.mem_flatten.mp hi
    obtain ⟨cs, hcs, hl⟩ := Loops.exists_of_mem hrest hl
    obtain ⟨weights, hweights, hl⟩ := Option.bind_eq_some_iff.mp hl
    dsimp only at hl
    split at hl
    · rename_i hms
      obtain ⟨inputs, hinputs, hl⟩ := Option.bind_eq_some_iff.mp hl
      obtain rfl := Option.some.inj hl
      rcases List.mem_cons.mp hi with rfl | hi
      · exact .inr (.inl ⟨cs, hcs, hweights⟩)
      · obtain ⟨ns, hns, hact⟩ := Loops.exists_of_mem hinputs hi
        exact .inr (.inr ⟨hms, cs, hcs, ns, hns, hact⟩)
    · obtain rfl := Option.some.inj hl
      obtain rfl := List.mem_singleton.mp hi
      exact .inr (.inl ⟨cs, hcs, hweights⟩)

/-- An operand that has anything to fetch has a part of the dimension `C`. -/
theorem cInLoop_pos_of_addrs {rows cs : Nat} {f : Nat × Nat → Option AddrType} {base : AddrType}
    {addrs : List AddrType}
    (h : ((List.range rows).flatMap fun m =>
      (steps (cInLoop tile mapping cs) op.elemsPerAccess).map fun c => (m, c)).mapM f = some addrs)
    (hne : addrSet (addrs.map (base + ·)) ≠ []) : 0 < cInLoop tile mapping cs := by
  refine Nat.pos_of_ne_zero fun hzero => hne ?_
  rw [hzero, steps_zero] at h
  have hnil : (List.range rows).flatMap (fun m => ([] : List Nat).map fun c => (m, c)) = [] := by simp
  rw [hnil] at h
  obtain rfl := Option.some.inj h
  rfl

/-- The computes of a step, a block of rows and a part of the dimension `C`. -/
theorem exists_compute (hloop : 0 < op.loopSize) {ms ns cs : Nat} (hms : ms ∈ op.mSteps tile mapping)
    (hns : ns ∈ op.nSteps tile mapping) (hcs : cs ∈ cSteps mapping)
    (hpos : 0 < cInLoop tile mapping cs) :
    ∃ k ∈ (op.mSteps tile mapping).flatMap (op.computes tile mapping), Core.isGemm k.opcode ∧
      k.srcAddrs = [op.actSpAddr mapping ns cs, op.weightSpAddr mapping ms cs] := by
  have hzero : 0 ∈ steps (cInLoop tile mapping cs) op.loopSize :=
    (mem_steps hloop).mpr ⟨hpos, Nat.dvd_zero _⟩
  refine ⟨_, List.mem_flatMap.mpr ⟨ms, hms, List.mem_flatMap.mpr ⟨cs, hcs, List.mem_flatMap.mpr ⟨ns, hns,
    List.mem_map.mpr ⟨0, hzero, rfl⟩⟩⟩⟩, rfl, rfl⟩

/-- Without blocks of rows a tile only loads. -/
theorem sections_of_nSteps_nil (h : op.nSteps tile mapping = []) :
    (op.mSteps tile mapping).flatMap (op.computes tile mapping) = [] ∧
      op.storeSteps tile mapping = [] := by
  constructor
  · refine List.flatMap_eq_nil_iff.mpr fun ms _ => ?_
    unfold computes
    rw [h]
    simp
  · unfold storeSteps
    rw [h]
    simp

theorem mem_computes {ms : Nat} {i : Instruction} (hi : i ∈ op.computes tile mapping ms) :
    Core.isGemm i.opcode ∧ i.srcFromAccum = false ∧ i.zeroInit = false ∧
      ∃ ns ∈ op.nSteps tile mapping, i.destAddr = op.outSpAddr mapping ns ms := by
  simp only [computes, List.mem_flatMap, List.mem_map] at hi
  obtain ⟨cs, -, ns, hns, c, -, rfl⟩ := hi
  exact ⟨rfl, rfl, rfl, ns, hns, rfl⟩

/-- A bias is loaded into the accumulator. -/
theorem biasMovin_toAccum (op : GemmWS) (tile : Tile) (mapping : Mapping) (ms : Nat) :
    (op.biasMovin tile mapping ms).toAccum = true := by
  have hword : (op.bytes ms).toNat < 2 ^ 32 := by
    unfold bytes word
    rw [BitVec.toNat_ofNat]
    omega
  refine decide_eq_true ?_
  show ACCUM_SPAD_BASE ≤ ACCUM_SPAD_BASE + op.bytes ms
  rw [BitVec.le_def, BitVec.toNat_add, accumBase_toNat, Nat.mod_eq_of_lt (by omega)]
  omega

/-- A load has whole chunks, and what it loads into the scratchpad is read by a compute, unless the tile
has none. -/
theorem load_precedes (hloop : 0 < op.loopSize) {ms : Nat} {is : List Instruction}
    (hms : ms ∈ op.mSteps tile mapping) (h : op.loads tile mapping ms = some is) {i : Instruction}
    (hi : i ∈ is) : i.opcode = .MOVIN ∧ i.size = i.srcAddrs.length ∧
      (i.toAccum = false → i.srcAddrs ≠ [] → op.nSteps tile mapping ≠ [] →
        ∃ k ∈ (op.mSteps tile mapping).flatMap (op.computes tile mapping), k.Reads i.destAddr) := by
  rcases mem_loads_of_some h hi with rfl | ⟨cs, hcs, hweights⟩ | ⟨rfl, cs, hcs, ns, hns, hact⟩
  · refine ⟨rfl, rfl, fun haccum => ?_⟩
    rw [biasMovin_toAccum] at haccum
    cases haccum
  · obtain ⟨addrs, haddrs, hweights⟩ := Option.bind_eq_some_iff.mp hweights
    obtain rfl := Option.some.inj hweights
    refine ⟨rfl, rfl, fun _ hne hrows => ?_⟩
    obtain ⟨ns, hns⟩ := List.exists_mem_of_ne_nil _ hrows
    obtain ⟨k, hk, hgemm, hsrc⟩ :=
      exists_compute hloop hms hns hcs (cInLoop_pos_of_addrs haddrs hne)
    exact ⟨k, hk, hgemm, by simp [hsrc]⟩
  · obtain ⟨addrs, haddrs, hact⟩ := Option.bind_eq_some_iff.mp hact
    obtain rfl := Option.some.inj hact
    refine ⟨rfl, rfl, fun _ hne _ => ?_⟩
    obtain ⟨k, hk, hgemm, hsrc⟩ :=
      exists_compute hloop hms hns hcs (cInLoop_pos_of_addrs haddrs hne)
    exact ⟨k, hk, hgemm, by simp [hsrc]⟩

theorem inOrder {is : List Instruction} (h : op.initializeInstructions tile mapping = some is) :
    InOrder is := by
  obtain ⟨hloop, -, loads, stores, hloads, hstores, rfl⟩ := sections_of_some h
  have hload : ∀ k ∈ loads.flatten, k.opcode = .MOVIN ∧ k.size = k.srcAddrs.length ∧
      (k.toAccum = false → k.srcAddrs ≠ [] → op.nSteps tile mapping ≠ [] →
        ∃ k' ∈ (op.mSteps tile mapping).flatMap (op.computes tile mapping), k'.Reads k.destAddr) := by
    intro k hk
    obtain ⟨l, hl, hk⟩ := List.mem_flatten.mp hk
    obtain ⟨ms, hms, hl⟩ := Loops.exists_of_mem hloads hl
    exact load_precedes hloop hms hl hk
  have hstore : ∀ k ∈ stores, Core.isStore k.opcode := by
    intro k hk
    obtain ⟨p, -, hp⟩ := Loops.exists_of_mem hstores hk
    rw [opcode_of_movout hp]
    rfl
  rw [List.append_assoc]
  refine inOrder_append (fun k post hsuffix => ?_) (inOrder_append (fun k post hsuffix => ?_) ?_)
  · have hmem : ∀ k' ∈ k :: post, k' ∈ loads.flatten := fun k' hk' => hsuffix.subset hk'
    obtain ⟨hopcode, hsize, hread⟩ := hload k (hmem k List.mem_cons_self)
    refine ⟨.inl ⟨hopcode, hsize⟩, fun _ haccum hne => ?_, fun hgemm => ?_⟩
    · by_cases hrows : op.nSteps tile mapping = []
      · obtain ⟨hcomputes, hsteps⟩ := sections_of_nSteps_nil hrows
        rw [hsteps] at hstores
        obtain rfl : [] = stores := by simpa using hstores
        rw [hcomputes, List.append_nil, List.append_nil]
        exact .inr (endsIn_of_forall (List.cons_ne_nil _ _) fun k' hk' => (hload k' (hmem k' hk')).1)
      · obtain ⟨k', hk', hread⟩ := hread haccum hne hrows
        exact .inl ⟨k', List.mem_append_right _ (List.mem_append_left _ hk'), hread⟩
    · exact absurd hopcode (isGemm_not_load hgemm)
  · have hmem : ∀ k' ∈ k :: post, ∃ ms ∈ op.mSteps tile mapping, k' ∈ op.computes tile mapping ms :=
      fun k' hk' => List.mem_flatMap.mp (hsuffix.subset hk')
    obtain ⟨ms, hms, hk⟩ := hmem k List.mem_cons_self
    obtain ⟨hgemm, haccum, hzero, ns, hns, hdest⟩ := mem_computes hk
    refine ⟨.inr (.inr ⟨hgemm, haccum, hzero⟩), fun hopcode => ?_, fun _ => ?_⟩
    · exact absurd hopcode (isGemm_not_load hgemm)
    · unfold storeSteps at hstores
      split at hstores
      · have hstep : (ms, ns) ∈ (op.mSteps tile mapping).flatMap fun ms =>
            (op.nSteps tile mapping).map fun ns => (ms, ns) :=
          List.mem_flatMap.mpr ⟨ms, hms, List.mem_map_of_mem hns⟩
        obtain ⟨k', hk', hmovout⟩ := Loops.exists_of_forall₂ (Loops.forall₂_of_mapM hstores) hstep
        exact .inl ⟨k', List.mem_append_right _ hk', hstore k' hk',
          (destAddr_of_movout hmovout).trans hdest.symm⟩
      · obtain rfl : [] = stores := by simpa using hstores
        rw [List.append_nil]
        refine .inr (endsIn_of_forall (List.cons_ne_nil _ _) fun k' hk' => ?_)
        obtain ⟨ms', -, hk'⟩ := hmem k' hk'
        exact (mem_computes hk').1
  · rw [← List.append_nil stores]
    refine inOrder_append (fun k post hsuffix => ?_) trivial
    have hop := hstore k (hsuffix.subset List.mem_cons_self)
    refine ⟨.inr (.inl hop), fun hload => ?_, fun hgemm => absurd hgemm (isStore_not_gemm hop)⟩
    rw [hload] at hop
    cases hop

/-- No instruction is marked as the last one of its tile. -/
theorem unmarked {is : List Instruction} (h : op.initializeInstructions tile mapping = some is) :
    ∀ i ∈ is, i.lastInst = false := by
  obtain ⟨-, -, loads, stores, hloads, hstores, rfl⟩ := sections_of_some h
  intro i hi
  rcases List.mem_append.mp hi with hi | hi
  · rcases List.mem_append.mp hi with hi | hi
    · obtain ⟨l, hl, hi⟩ := List.mem_flatten.mp hi
      obtain ⟨ms, -, hl⟩ := Loops.exists_of_mem hloads hl
      rcases mem_loads_of_some hl hi with rfl | ⟨cs, -, hweights⟩ | ⟨-, cs, -, ns, -, hact⟩
      · rfl
      · obtain ⟨addrs, -, hweights⟩ := Option.bind_eq_some_iff.mp hweights
        obtain rfl := Option.some.inj hweights
        rfl
      · obtain ⟨addrs, -, hact⟩ := Option.bind_eq_some_iff.mp hact
        obtain rfl := Option.some.inj hact
        rfl
    · simp only [computes, List.mem_flatMap, List.mem_map] at hi
      obtain ⟨ms, -, cs, -, ns, -, c, -, rfl⟩ := hi
      rfl
  · obtain ⟨p, -, hp⟩ := Loops.exists_of_mem hstores hi
    obtain ⟨addrs, -, hp⟩ := Option.bind_eq_some_iff.mp hp
    obtain rfl := Option.some.inj hp
    rfl

/-- Whatever the mapping, each tile is one of a turn of the loops. -/
theorem exists_tileOf {tiles : List Tile} (h : op.initializeTiles mapping = some tiles) :
    ∀ t ∈ tiles, ∃ loop, op.TileOf mapping loop t := by
  obtain ⟨st, hst, h⟩ := Option.bind_eq_some_iff.mp h
  obtain rfl := Option.some.inj h
  refine Loops.foldlM_induction
    (P := fun st : Int × List Tile => ∀ t ∈ st.2, ∃ loop, op.TileOf mapping loop t) hst (by simp)
    fun st loop _ st' hall hstep => ?_
  obtain ⟨coreId, heq⟩ := op.initializeTile_eq mapping st loop
  rw [heq] at hstep
  obtain ⟨is, his, hstep⟩ := Option.bind_eq_some_iff.mp hstep
  split at hstep
  · obtain rfl := Option.some.inj hstep
    exact hall
  · obtain rfl := Option.some.inj hstep
    exact List.forall_mem_append.mpr ⟨hall,
      List.forall_mem_singleton.mpr ⟨loop, ⟨coreId, rfl⟩, his⟩⟩

end GemmWS

end OnnxSim
