import OnnxSim.Lib.Loops
import OnnxSim.Operations.GemmBlocks
import OnnxSim.Operations.GemmWS

/-!
# What the tiling of a matrix multiplication makes

The shapes that the constructors of `Gemm` set, the key under which `initialize_tiles` asks for its
mapping, and what the loops of `initialize_tiles` and `initialize_instructions` produce with the mapping
of `gemm_mapping`: when they come to their end (`GemmWS.exists_initializeTiles_iff`), and what is in the
tiles then (`GemmWS.made_of_initializeTiles`).
-/

namespace OnnxSim

/-! ## Shapes -/

/-- How a tensor of rows and columns is laid out: as they are, the rows in `b` batches, or with rows and
columns in each other's place. -/
inductive GemmLayout where
  | plain
  | batched (b : Nat)
  | transA
  deriving Repr, DecidableEq

namespace GemmLayout

def shape : GemmLayout → Nat → Nat → List Nat
  | plain, rows, cols => [rows, cols]
  | batched b, rows, cols => [b, rows / b, cols]
  | transA, rows, cols => [cols, rows]

/-- `Ndim`. -/
def ndim : GemmLayout → Nat
  | transA => 1
  | _ => 0

/-- `_batch_size`. -/
def batchSize : GemmLayout → Nat
  | batched b => b
  | _ => 1

/-- The rows fill the batches. -/
def Fits : GemmLayout → Nat → Prop
  | batched b, rows => b ∣ rows
  | _, _ => True

/-- The index that `initialize_instructions` makes for row `n` and column `c` is one of the tensor. It
does not ask for `Ndim` and `Cdim`. -/
def Within : GemmLayout → Nat → Nat → Nat → Nat → Prop
  | transA, rows, cols, n, c => n < cols ∧ c < rows
  | _, rows, cols, n, c => n < rows ∧ c < cols

end GemmLayout

namespace GemmWS

/-- The shapes of a multiplication of `N` x `C` by `C` x `M`. -/
structure Multiplies (op : GemmWS) (layout : GemmLayout) (N C M : Nat) : Prop where
  inputShape : op.inputShape = layout.shape N C
  outputShape : op.outputShape = layout.shape N M
  weightC : op.weightShape.getD op.cdimW 0 = C
  weightM : op.weightShape.getD op.mdim 0 = M
  fits : layout.Fits N

/-- The constructor of `Gemm` from an ONNX node. -/
def ofNode (node : Node) (hasBias transA transB : Bool) (inputShape weightShape : List Nat) :
    Option GemmWS :=
  if inputShape.length ≠ 2 ∨ weightShape.length ≠ 2 then none
  else
    let mdim := if transB then 0 else 1
    let cdim := if transA then 0 else 1
    some { node with
      inputShape := inputShape
      weightShape := weightShape
      outputShape := inputShape.set cdim (weightShape.getD mdim 0)
      hasBias := hasBias
      cdimW := if transB then 1 else 0
      mdim := mdim }

theorem ofNode_multiplies (node : Node) (hasBias transA transB : Bool) (N C M : Nat) :
    ∃ op, ofNode node hasBias transA transB (if transA then [C, N] else [N, C])
      (if transB then [M, C] else [C, M]) = some op ∧
        op.Multiplies (if transA then .transA else .plain) N C M := by
  cases transA <;> cases transB <;> exact ⟨_, rfl, rfl, rfl, rfl, rfl, trivial⟩

/-- The key of `initialize_tiles`. -/
def key (op : GemmWS) (ndim batchSize : Nat) : MappingKey where
  N := op.outputShape.getD (op.inputShape.length - 2 + ndim) 0 * batchSize
  C := op.weightShape.getD op.cdimW 0
  M := op.weightShape.getD op.mdim 0
  targetCore := op.targetCore

theorem Multiplies.key_eq {op : GemmWS} {layout : GemmLayout} {N C M : Nat}
    (h : op.Multiplies layout N C M) :
    op.key layout.ndim layout.batchSize = { N := N, C := C, M := M, targetCore := op.targetCore } := by
  obtain ⟨hinput, houtput, rfl, rfl, hfits⟩ := h
  unfold key
  rw [hinput, houtput]
  congr
  cases layout with
  | plain => exact Nat.mul_one N
  | batched b => exact Nat.div_mul_cancel hfits
  | transA => exact Nat.mul_one N

/-- `make_address` takes the index of an element that is one of the tensor. -/
theorem exists_makeAddress_iff (node : Node) {layout : GemmLayout} {rows cols : Nat} (n c : Nat)
    (hfits : layout.Fits rows) (hrows : 0 < rows) :
    (∃ addr, node.makeAddress (index (layout.shape rows cols) n c) (layout.shape rows cols) =
      some addr) ↔ layout.Within rows cols n c := by
  cases layout with
  | plain => simp [GemmLayout.shape, GemmLayout.Within, index, Node.makeAddress]
  | batched b =>
    have hrow : n / (rows / b) < b ∧ n % (rows / b) < rows / b ↔ n < rows := by
      obtain ⟨r, rfl⟩ := hfits
      have hb : 0 < b := Nat.pos_of_mul_pos_right hrows
      have hr : 0 < r := Nat.pos_of_mul_pos_left hrows
      rw [Nat.mul_div_cancel_left r hb, Nat.div_lt_iff_lt_mul hr]
      exact and_iff_left (Nat.mod_lt n hr)
    simp only [GemmLayout.Within, ← hrow]
    simp [GemmLayout.shape, index, Node.makeAddress, and_assoc]
  | transA => simp [GemmLayout.shape, GemmLayout.Within, index, Node.makeAddress]

/-- A multiplication with a mapping that cuts its dimensions. -/
structure Tiling (op : GemmWS) (mapping : Mapping) (layout : GemmLayout) (N C M : Nat) : Prop where
  multiplies : op.Multiplies layout N C M
  cut : Cut op.loopSize N C M mapping
  loopSize_pos : 0 < op.loopSize
  elemsPerAccess_pos : 0 < op.elemsPerAccess
  N_pos : 0 < N
  C_pos : 0 < C
  M_pos : 0 < M

/-- The tiles of the loops of `initialize_tiles`. -/
structure InLoops (mapping : Mapping) (tile : Tile) : Prop where
  batch_lt : tile.batch < mapping.tileOutLoop.N
  M_lt : tile.M < mapping.tileOutLoop.M
  C_lt : tile.C < mapping.tileOutLoop.C

/-! ## The loops of a tile -/

theorem mem_samples {rows cols step : Nat} (hstep : 0 < step) {p : Nat × Nat} :
    p ∈ (List.range rows).flatMap (fun n => (steps cols step).map fun c => (n, c)) ↔
      p.1 < rows ∧ p.2 < cols ∧ step ∣ p.2 := by
  simp only [List.mem_flatMap, List.mem_range, List.mem_map, mem_steps hstep]
  constructor
  · rintro ⟨n, hn, c, hc, rfl⟩
    exact ⟨hn, hc⟩
  · rintro ⟨hn, hc⟩
    exact ⟨p.1, hn, p.2, hc, rfl⟩

theorem exists_samples_iff {f : Nat × Nat → Option AddrType} {rows cols step : Nat}
    (hstep : 0 < step) :
    (∃ addrs, ((List.range rows).flatMap fun n => (steps cols step).map fun c => (n, c)).mapM f =
      some addrs) ↔ ∀ n < rows, ∀ c < cols, step ∣ c → ∃ addr, f (n, c) = some addr := by
  rw [Loops.exists_mapM_iff]
  constructor
  · intro hall n hn c hc hdvd
    exact hall (n, c) ((mem_samples hstep).mpr ⟨hn, hc, hdvd⟩)
  · intro hall p hp
    obtain ⟨hn, hc, hdvd⟩ := (mem_samples hstep).mp hp
    exact hall p.1 hn p.2 hc hdvd

section Steps

variable {op : GemmWS} {mapping : Mapping} {layout : GemmLayout} {N C M : Nat} {tile : Tile}

namespace Tiling

theorem cSteps_eq (h : op.Tiling mapping layout N C M) : cSteps mapping = [0] :=
  steps_self h.cut.cutC.inner_pos

theorem mem_nSteps (h : op.Tiling mapping layout N C M) {ns : Nat} :
    ns ∈ op.nSteps tile mapping ↔
      ns < mapping.tileInLoop.N ∧ op.loopSize ∣ ns ∧ nOffset tile mapping ns < N := by
  unfold nSteps nLoop nOffset
  rw [h.cut.totalN]
  exact mem_takeWhile_steps h.loopSize_pos

theorem mem_mSteps (h : op.Tiling mapping layout N C M) {ms : Nat} :
    ms ∈ op.mSteps tile mapping ↔
      ms < mapping.tileInLoop.M ∧ op.loopSize ∣ ms ∧ mOffset tile mapping ms < M := by
  unfold mSteps mLoop mOffset
  rw [h.cut.totalM]
  exact mem_takeWhile_steps h.loopSize_pos

theorem nLoop_eq (h : op.Tiling mapping layout N C M) (ns : Nat) :
    op.nLoop tile mapping ns = min op.loopSize (N - nOffset tile mapping ns) := by
  unfold nLoop
  rw [within_eq, h.cut.totalN]

theorem mLoop_eq (h : op.Tiling mapping layout N C M) (ms : Nat) :
    op.mLoop tile mapping ms = min op.loopSize (M - mOffset tile mapping ms) := by
  unfold mLoop
  rw [within_eq, h.cut.totalM]

theorem cInLoop_eq (h : op.Tiling mapping layout N C M) (cs : Nat) :
    cInLoop tile mapping cs = min mapping.tileInLoop.C (C - cOffset tile mapping cs) := by
  unfold cInLoop
  rw [within_eq, h.cut.totalC]

theorem zero_mem_mSteps (h : op.Tiling mapping layout N C M) (htile : InLoops mapping tile) :
    0 ∈ op.mSteps tile mapping :=
  h.mem_mSteps.mpr ⟨h.cut.cutM.inner_pos, Nat.dvd_zero _, h.cut.cutM.start_lt _ htile.M_lt⟩

theorem nOffset_add_lt (h : op.Tiling mapping layout N C M) {ns n : Nat}
    (hn : n < op.nLoop tile mapping ns) : nOffset tile mapping ns + n < N := by
  rw [h.nLoop_eq] at hn
  omega

theorem mOffset_add_lt (h : op.Tiling mapping layout N C M) {ms m : Nat}
    (hm : m < op.mLoop tile mapping ms) : mOffset tile mapping ms + m < M := by
  rw [h.mLoop_eq] at hm
  omega

/-- The place of a row of the weights in its step. -/
theorem mOffset_add_mod (h : op.Tiling mapping layout N C M) {ms m : Nat}
    (hms : ms ∈ op.mSteps tile mapping) (hm : m < op.mLoop tile mapping ms) :
    (mOffset tile mapping ms + m) % op.loopSize = m := by
  rw [h.mLoop_eq] at hm
  have hdvd : op.loopSize ∣ mOffset tile mapping ms :=
    Nat.dvd_add (Dvd.dvd.mul_left h.cut.cutM.dvd _) (h.mem_mSteps.mp hms).2.1
  rw [Nat.add_mod, Nat.mod_eq_zero_of_dvd hdvd, Nat.zero_add, Nat.mod_mod]
  exact Nat.mod_eq_of_lt (by omega)

theorem cOffset_add_lt (h : op.Tiling mapping layout N C M) {c : Nat}
    (hc : c < cInLoop tile mapping 0) : cOffset tile mapping 0 + c < C := by
  rw [h.cInLoop_eq] at hc
  omega

/-- The place of a column in its tile. -/
theorem cOffset_add_mod (h : op.Tiling mapping layout N C M) {c : Nat}
    (hc : c < cInLoop tile mapping 0) :
    (cOffset tile mapping 0 + c) % mapping.tileInLoop.C = c := by
  rw [h.cInLoop_eq] at hc
  unfold cOffset
  rw [Nat.add_zero, Nat.mul_add_mod']
  exact Nat.mod_eq_of_lt (by omega)

/-! ### The addresses -/

theorem exists_activationMovin_iff (h : op.Tiling mapping layout N C M) (ns cs : Nat) :
    (∃ i, op.activationMovin tile mapping ns cs = some i) ↔
      ∀ n < op.nLoop tile mapping ns, ∀ c < cInLoop tile mapping cs, op.elemsPerAccess ∣ c →
        layout.Within N C (nOffset tile mapping ns + n) (cOffset tile mapping cs + c) := by
  refine Loops.exists_bind_some_iff.trans ((exists_samples_iff h.elemsPerAccess_pos).trans ?_)
  simp only [h.multiplies.inputShape, exists_makeAddress_iff _ _ _ h.multiplies.fits h.N_pos]

theorem exists_movout_iff (h : op.Tiling mapping layout N C M) (ms ns : Nat) :
    (∃ i, op.movout tile mapping ms ns = some i) ↔
      ∀ n < op.nLoop tile mapping ns, ∀ m < op.mLoop tile mapping ms, op.elemsPerAccess ∣ m →
        layout.Within N M (nOffset tile mapping ns + n) (mOffset tile mapping ms + m) := by
  refine Loops.exists_bind_some_iff.trans ((exists_samples_iff h.elemsPerAccess_pos).trans ?_)
  simp only [h.multiplies.outputShape, exists_makeAddress_iff _ _ _ h.multiplies.fits h.N_pos]

/-- The weights are always in range. -/
theorem exists_weightMovin (h : op.Tiling mapping layout N C M) (ms cs : Nat) :
    ∃ i, op.weightMovin tile mapping ms cs = some i := by
  refine Loops.exists_bind_some_iff.mpr ((exists_samples_iff h.elemsPerAccess_pos).mpr ?_)
  intro m hm c hc _
  rw [h.mLoop_eq] at hm
  rw [h.cInLoop_eq] at hc
  rw [h.multiplies.weightC, h.multiplies.weightM]
  have hfits : GemmLayout.plain.Fits M := trivial
  exact (exists_makeAddress_iff op.toNode _ _ hfits h.M_pos).mpr ⟨by omega, by omega⟩

/-! ### The instructions -/

theorem loads_eq (h : op.Tiling mapping layout N C M) (ms : Nat) :
    op.loads tile mapping ms = (op.weightMovin tile mapping ms 0).bind fun weights =>
      (if ms = 0 then (op.nSteps tile mapping).mapM fun ns => op.activationMovin tile mapping ns 0
        else some []).bind fun inputs =>
          some ((if !tile.accum && op.hasBias then [op.biasMovin tile mapping ms] else []) ++
            weights :: inputs) := by
  unfold loads
  rw [h.cSteps_eq, List.mapM_cons, List.mapM_nil]
  cases op.weightMovin tile mapping ms 0 with
  | none => rfl
  | some weights =>
    by_cases hms : ms = 0
    · simp only [if_pos hms]
      cases (op.nSteps tile mapping).mapM fun ns => op.activationMovin tile mapping ns 0 with
      | none => simp [hms]
      | some inputs => simp [hms]
    · simp [hms]

end Tiling

/-- The steps of the loops that store: those of the tiles that reach the end of the dimension `C`. -/
def storeSteps (op : GemmWS) (tile : Tile) (mapping : Mapping) : List (Nat × Nat) :=
  if cOffset tile mapping 0 + mapping.tileInLoop.C ≥ mapping.totalLoop.C then
    (op.mSteps tile mapping).flatMap fun ms => (op.nSteps tile mapping).map fun ns => (ms, ns)
  else []

theorem stores_eq (op : GemmWS) (tile : Tile) (mapping : Mapping) :
    op.stores tile mapping =
      (op.storeSteps tile mapping).mapM fun p => op.movout tile mapping p.1 p.2 := by
  unfold stores storeSteps
  split
  · rw [Loops.mapM_flatMap]
    simp only [List.mapM_map, Option.map_eq_bind]
    rfl
  · rfl

namespace Tiling

theorem exists_loads_iff (h : op.Tiling mapping layout N C M) (ms : Nat) :
    (∃ is, op.loads tile mapping ms = some is) ↔
      (ms = 0 → ∀ ns ∈ op.nSteps tile mapping, ∃ i, op.activationMovin tile mapping ns 0 = some i) := by
  obtain ⟨weights, hweights⟩ : ∃ i, op.weightMovin tile mapping ms 0 = some i :=
    h.exists_weightMovin ms 0
  rw [h.loads_eq, hweights, Option.bind_some]
  refine Loops.exists_bind_some_iff.trans ?_
  by_cases hms : ms = 0
  · rw [if_pos hms, Loops.exists_mapM_iff]
    exact ⟨fun hall _ => hall, fun hall => hall hms⟩
  · rw [if_neg hms]
    exact iff_of_true ⟨[], rfl⟩ fun hzero => absurd hzero hms

/-- What the load of a step has: the biases and the activations only where they are due. -/
theorem mem_loads (h : op.Tiling mapping layout N C M) {ms : Nat} {is : List Instruction}
    (hloads : op.loads tile mapping ms = some is) {i : Instruction} :
    i ∈ is ↔ (tile.accum = false ∧ op.hasBias = true ∧ i = op.biasMovin tile mapping ms) ∨
      op.weightMovin tile mapping ms 0 = some i ∨
      ms = 0 ∧ ∃ ns ∈ op.nSteps tile mapping, op.activationMovin tile mapping ns 0 = some i := by
  rw [h.loads_eq] at hloads
  obtain ⟨weights, hweights, hloads⟩ := Option.bind_eq_some_iff.mp hloads
  obtain ⟨inputs, hinputs, hloads⟩ := Option.bind_eq_some_iff.mp hloads
  obtain rfl := Option.some.inj hloads
  have hmem : i ∈ inputs ↔
      ms = 0 ∧ ∃ ns ∈ op.nSteps tile mapping, op.activationMovin tile mapping ns 0 = some i := by
    by_cases hms : ms = 0
    · rw [if_pos hms] at hinputs
      rw [Loops.mem_iff_of_mapM hinputs]
      exact (and_iff_right hms).symm
    · rw [if_neg hms] at hinputs
      obtain rfl := Option.some.inj hinputs
      simp [hms]
  have hbias : i ∈ (if !tile.accum && op.hasBias then [op.biasMovin tile mapping ms] else []) ↔
      tile.accum = false ∧ op.hasBias = true ∧ i = op.biasMovin tile mapping ms := by
    split <;> simp_all
  rw [List.mem_append, List.mem_cons, hbias, hmem, hweights, Option.some.injEq,
    @eq_comm _ weights i]

end Tiling

/-- What `initialize_instructions` makes: the loads of each step, the computes and the stores. -/
structure Made (op : GemmWS) (tile : Tile) (mapping : Mapping) (is : List Instruction) : Prop where
  instructions : op.initializeInstructions tile mapping = some is
  sections : ∃ loads stores, (op.mSteps tile mapping).mapM (op.loads tile mapping) = some loads ∧
    (op.storeSteps tile mapping).mapM (fun p => op.movout tile mapping p.1 p.2) = some stores ∧
    is = loads.flatten ++ (op.mSteps tile mapping).flatMap (op.computes tile mapping) ++ stores

namespace Tiling

theorem initializeInstructions_eq (h : op.Tiling mapping layout N C M) :
    op.initializeInstructions tile mapping =
      ((op.mSteps tile mapping).mapM (op.loads tile mapping)).bind fun loads =>
        ((op.storeSteps tile mapping).mapM fun p => op.movout tile mapping p.1 p.2).bind fun stores =>
          some (loads.flatten ++ (op.mSteps tile mapping).flatMap (op.computes tile mapping) ++
            stores) := by
  have hloop := h.loopSize_pos
  have helems := h.elemsPerAccess_pos
  unfold initializeInstructions
  rw [if_neg (by omega), op.stores_eq]
  rfl

theorem made (h : op.Tiling mapping layout N C M) {is : List Instruction}
    (his : op.initializeInstructions tile mapping = some is) : op.Made tile mapping is := by
  refine ⟨his, ?_⟩
  rw [h.initializeInstructions_eq] at his
  obtain ⟨loads, hloads, his⟩ := Option.bind_eq_some_iff.mp his
  obtain ⟨stores, hstores, his⟩ := Option.bind_eq_some_iff.mp his
  exact ⟨loads, stores, hloads, hstores, (Option.some.inj his).symm⟩

/-- `initialize_instructions` comes to its end if the activations and the outputs are in range. -/
theorem exists_instructions_iff (h : op.Tiling mapping layout N C M)
    (htile : InLoops mapping tile) :
    (∃ is, op.initializeInstructions tile mapping = some is) ↔
      (∀ ns ∈ op.nSteps tile mapping, ∃ i, op.activationMovin tile mapping ns 0 = some i) ∧
        ∀ p ∈ op.storeSteps tile mapping, ∃ i, op.movout tile mapping p.1 p.2 = some i := by
  rw [h.initializeInstructions_eq]
  constructor
  · rintro ⟨is, his⟩
    obtain ⟨loads, hloads, his⟩ := Option.bind_eq_some_iff.mp his
    obtain ⟨stores, hstores, -⟩ := Option.bind_eq_some_iff.mp his
    refine ⟨?_, Loops.exists_mapM_iff.mp ⟨stores, hstores⟩⟩
    have hzero := Loops.exists_mapM_iff.mp ⟨loads, hloads⟩ 0 (h.zero_mem_mSteps htile)
    exact (h.exists_loads_iff 0).mp hzero rfl
  · rintro ⟨hinputs, houtputs⟩
    obtain ⟨loads, hloads⟩ : ∃ loads, (op.mSteps tile mapping).mapM (op.loads tile mapping) =
        some loads :=
      Loops.exists_mapM fun ms _ => (h.exists_loads_iff ms).mpr fun _ => hinputs
    obtain ⟨stores, hstores⟩ := Loops.exists_mapM houtputs
    rw [hloads, hstores]
    exact ⟨_, rfl⟩

theorem storeSteps_eq (h : op.Tiling mapping layout N C M) (htile : InLoops mapping tile) :
    op.storeSteps tile mapping = if tile.C + 1 = mapping.tileOutLoop.C then
      (op.mSteps tile mapping).flatMap fun ms => (op.nSteps tile mapping).map fun ns => (ms, ns)
    else [] := by
  have hend : cOffset tile mapping 0 + mapping.tileInLoop.C ≥ mapping.totalLoop.C ↔
      tile.C + 1 = mapping.tileOutLoop.C := by
    rw [h.cut.totalC]
    exact h.cut.cutC.end_le_iff htile.C_lt
  unfold storeSteps
  exact if_congr hend rfl rfl

theorem mem_storeSteps (h : op.Tiling mapping layout N C M) (htile : InLoops mapping tile)
    {p : Nat × Nat} :
    p ∈ op.storeSteps tile mapping ↔ tile.C + 1 = mapping.tileOutLoop.C ∧
      p.1 ∈ op.mSteps tile mapping ∧ p.2 ∈ op.nSteps tile mapping := by
  rw [h.storeSteps_eq htile]
  split
  · rename_i hlast
    rw [and_iff_right hlast]
    simp only [List.mem_flatMap, List.mem_map]
    constructor
    · rintro ⟨ms, hms, ns, hns, rfl⟩
      exact ⟨hms, hns⟩
    · rintro ⟨hms, hns⟩
      exact ⟨p.1, hms, p.2, hns, rfl⟩
  · rename_i hlast
    exact iff_of_false List.not_mem_nil fun hp => hlast hp.1

/-- No tile is empty. -/
theorem ne_nil (h : op.Tiling mapping layout N C M) (htile : InLoops mapping tile)
    {is : List Instruction} (his : op.initializeInstructions tile mapping = some is) : is ≠ [] := by
  obtain ⟨loads, stores, hloads, -, rfl⟩ := (h.made his).sections
  obtain ⟨first, hfirst⟩ := Loops.exists_mapM_iff.mp ⟨loads, hloads⟩ 0 (h.zero_mem_mSteps htile)
  obtain ⟨weights, hweights⟩ : ∃ i, op.weightMovin tile mapping 0 0 = some i :=
    h.exists_weightMovin 0 0
  have hmem : first ∈ loads :=
    (Loops.mem_iff_of_mapM hloads).mpr ⟨0, h.zero_mem_mSteps htile, hfirst⟩
  have hin : weights ∈ loads.flatten :=
    List.mem_flatten.mpr ⟨first, hmem, (h.mem_loads hfirst).mpr (.inr (.inl hweights))⟩
  intro hnil
  simp only [List.append_eq_nil_iff] at hnil
  rw [hnil.1.1] at hin
  cases hin

end Tiling

/-! ## The tiles -/

/-- The turns of the loops of `initialize_tiles`. -/
def tileLoops (mapping : Mapping) : List (Nat × Nat × Nat) :=
  (blockLoops mapping).flatMap (reductionLoop mapping)

theorem mem_tileLoops {loop : Nat × Nat × Nat} :
    loop ∈ tileLoops mapping ↔ loop.1 < mapping.tileOutLoop.N ∧ loop.2.1 < mapping.tileOutLoop.M ∧
      loop.2.2 < mapping.tileOutLoop.C := by
  obtain ⟨n, m, c⟩ := loop
  simp only [tileLoops, blockLoops, reductionLoop, List.mem_flatMap, List.mem_map, List.mem_range]
  constructor
  · rintro ⟨_, ⟨n', hn, m', hm, rfl⟩, c', hc, heq⟩
    cases heq
    exact ⟨hn, hm, hc⟩
  · rintro ⟨hn, hm, hc⟩
    exact ⟨(n, m), ⟨n, hn, m, hm, rfl⟩, c, hc, rfl⟩

/-- With rows and columns in each other's place, each element that is sampled is an element. -/
def InRange (op : GemmWS) (mapping : Mapping) (layout : GemmLayout) (N C M : Nat) : Prop :=
  layout = .transA → (N ≤ C ∧ ∀ c < C, op.elemsPerAccess ∣ c % mapping.tileInLoop.C → c < N) ∧
    N ≤ M ∧ ∀ m < M, op.elemsPerAccess ∣ m % op.loopSize → m < N

/-- The tile of a turn, before its instructions. -/
def freshTile (op : GemmWS) (coreId : Int) (loop : Nat × Nat × Nat) : Tile where
  status := .INITIALIZED
  layerId := op.id
  batch := loop.1
  Q := 1
  P := 1
  M := loop.2.1
  C := loop.2.2
  S := 1
  R := 1
  accum := loop.2.2 ≠ 0
  coreId := coreId

/-- The tile of a turn. -/
structure TileOf (op : GemmWS) (mapping : Mapping) (loop : Nat × Nat × Nat) (tile : Tile) :
    Prop where
  fields : ∃ coreId, tile = { op.freshTile coreId loop with instructions := tile.instructions }
  instructions : op.initializeInstructions tile mapping = some tile.instructions

namespace TileOf

variable {loop : Nat × Nat × Nat}

theorem batch_eq (h : op.TileOf mapping loop tile) : tile.batch = loop.1 := by
  obtain ⟨coreId, htile⟩ := h.fields
  rw [htile]
  rfl

theorem M_eq (h : op.TileOf mapping loop tile) : tile.M = loop.2.1 := by
  obtain ⟨coreId, htile⟩ := h.fields
  rw [htile]
  rfl

theorem C_eq (h : op.TileOf mapping loop tile) : tile.C = loop.2.2 := by
  obtain ⟨coreId, htile⟩ := h.fields
  rw [htile]
  rfl

theorem inLoops (h : op.TileOf mapping loop tile) (hloop : loop ∈ tileLoops mapping) :
    InLoops mapping tile := by
  obtain ⟨hN, hM, hC⟩ := mem_tileLoops.mp hloop
  exact ⟨h.batch_eq ▸ hN, h.M_eq ▸ hM, h.C_eq ▸ hC⟩

end TileOf

theorem initializeTile_eq (op : GemmWS) (mapping : Mapping) (st : Int × List Tile)
    (loop : Nat × Nat × Nat) : ∃ coreId, op.initializeTile mapping st loop =
      (op.initializeInstructions (op.freshTile coreId loop) mapping).bind fun is =>
        if is = [] then some (coreId, st.2)
        else some (coreId, st.2 ++ [{ op.freshTile coreId loop with instructions := is }]) :=
  ⟨_, rfl⟩

namespace Tiling

theorem foldlM_initializeTile (h : op.Tiling mapping layout N C M)
    {loops : List (Nat × Nat × Nat)} (hloops : ∀ loop ∈ loops, loop ∈ tileLoops mapping)
    {st st' : Int × List Tile} (hst : loops.foldlM (op.initializeTile mapping) st = some st') :
    ∃ tiles, st'.2 = st.2 ++ tiles ∧ List.Forall₂ (op.TileOf mapping) loops tiles := by
  induction loops generalizing st with
  | nil =>
    obtain rfl := Option.some.inj hst
    exact ⟨[], (List.append_nil _).symm, .nil⟩
  | cons loop loops ih =>
    rw [List.foldlM_cons] at hst
    obtain ⟨st₁, hst₁, hst⟩ := Option.bind_eq_some_iff.mp hst
    obtain ⟨coreId, heq⟩ := op.initializeTile_eq mapping st loop
    rw [heq] at hst₁
    obtain ⟨is, his, hst₁⟩ := Option.bind_eq_some_iff.mp hst₁
    have hmem := mem_tileLoops.mp (hloops loop List.mem_cons_self)
    have htile : InLoops mapping (op.freshTile coreId loop) := ⟨hmem.1, hmem.2.1, hmem.2.2⟩
    rw [if_neg (h.ne_nil htile his)] at hst₁
    obtain rfl := Option.some.inj hst₁
    obtain ⟨tiles, htiles, hall⟩ := ih (fun loop hloop => hloops loop (List.mem_cons_of_mem _ hloop))
      hst
    exact ⟨_, by rw [htiles, List.append_assoc]; rfl, .cons ⟨⟨coreId, rfl⟩, his⟩ hall⟩

/-- The tiles of `initialize_tiles`, one for each turn of its loops. -/
theorem tileOf_of_initializeTiles (h : op.Tiling mapping layout N C M) {tiles : List Tile}
    (htiles : op.initializeTiles mapping = some tiles) :
    List.Forall₂ (op.TileOf mapping) (tileLoops mapping) tiles := by
  obtain ⟨st, hst, htiles⟩ := Option.bind_eq_some_iff.mp htiles
  obtain rfl := Option.some.inj htiles
  obtain ⟨tiles, heq, hall⟩ := h.foldlM_initializeTile (fun _ hloop => hloop) hst
  rw [heq]
  exact hall

theorem inLoops_of_initializeTiles (h : op.Tiling mapping layout N C M) {tiles : List Tile}
    (htiles : op.initializeTiles mapping = some tiles) : ∀ tile ∈ tiles, InLoops mapping tile ∧
      op.initializeInstructions tile mapping = some tile.instructions := by
  intro tile hmem
  obtain ⟨loop, hloop, htile⟩ :=
    Loops.exists_of_forall₂_right (h.tileOf_of_initializeTiles htiles) hmem
  exact ⟨htile.inLoops hloop, htile.instructions⟩

theorem exists_tiles_iff (h : op.Tiling mapping layout N C M) :
    (∃ tiles, op.initializeTiles mapping = some tiles) ↔
      ∀ loop ∈ tileLoops mapping,
        ∃ is, op.initializeInstructions (op.freshTile 0 loop) mapping = some is := by
  constructor
  · rintro ⟨tiles, htiles⟩ loop hloop
    obtain ⟨tile, -, htile⟩ := Loops.exists_of_forall₂ (h.tileOf_of_initializeTiles htiles) hloop
    obtain ⟨coreId, hfields⟩ := htile.fields
    have his := htile.instructions
    rw [hfields] at his
    exact ⟨_, his⟩
  · intro hall
    have hturn : ∀ st, ∀ loop ∈ tileLoops mapping,
        ∃ st', op.initializeTile mapping st loop = some st' := by
      intro st loop hloop
      obtain ⟨coreId, heq⟩ := op.initializeTile_eq mapping st loop
      obtain ⟨is, his⟩ := hall loop hloop
      have his' : op.initializeInstructions (op.freshTile coreId loop) mapping = some is := his
      rw [heq, his', Option.bind_some]
      split <;> exact ⟨_, rfl⟩
    obtain ⟨st, hst⟩ := Loops.exists_foldlM hturn (-1, [])
    refine ⟨st.2, ?_⟩
    unfold initializeTiles
    rw [show ((blockLoops mapping).flatMap (reductionLoop mapping)).foldlM
      (op.initializeTile mapping) (-1, []) = some st from hst]
    rfl

/-- A row of the dimension `N` in the tile that has it. -/
theorem nLoop_of_locate (h : op.Tiling mapping layout N C M) {x : Nat} (hx : x < N)
    (hbatch : tile.batch = x / mapping.tileInLoop.N) :
    ∃ ns ∈ op.nSteps tile mapping, ∃ n < op.nLoop tile mapping ns,
      nOffset tile mapping ns + n = x := by
  obtain ⟨-, hlt, heq⟩ := h.cut.cutN.locate hx
  have hmod := Nat.mod_lt x h.loopSize_pos
  have hoffset : nOffset tile mapping (x % mapping.tileInLoop.N / op.loopSize * op.loopSize) +
      x % op.loopSize = x := by
    unfold nOffset
    rw [hbatch]
    exact heq
  refine ⟨_, h.mem_nSteps.mpr ⟨hlt, Nat.dvd_mul_left _ _, by omega⟩, x % op.loopSize, ?_, hoffset⟩
  rw [h.nLoop_eq]
  omega

theorem mLoop_of_locate (h : op.Tiling mapping layout N C M) {x : Nat} (hx : x < M)
    (hM : tile.M = x / mapping.tileInLoop.M) :
    ∃ ms ∈ op.mSteps tile mapping, x % op.loopSize < op.mLoop tile mapping ms ∧
      mOffset tile mapping ms + x % op.loopSize = x := by
  obtain ⟨-, hlt, heq⟩ := h.cut.cutM.locate hx
  have hmod := Nat.mod_lt x h.loopSize_pos
  have hoffset : mOffset tile mapping (x % mapping.tileInLoop.M / op.loopSize * op.loopSize) +
      x % op.loopSize = x := by
    unfold mOffset
    rw [hM]
    exact heq
  refine ⟨_, h.mem_mSteps.mpr ⟨hlt, Nat.dvd_mul_left _ _, by omega⟩, ?_, hoffset⟩
  rw [h.mLoop_eq]
  omega

theorem cInLoop_of_locate (h : op.Tiling mapping layout N C M) {x : Nat} (hx : x < C)
    (hC : tile.C = x / mapping.tileInLoop.C) :
    x % mapping.tileInLoop.C < cInLoop tile mapping 0 ∧
      cOffset tile mapping 0 + x % mapping.tileInLoop.C = x := by
  have hmod := Nat.mod_lt x h.cut.cutC.inner_pos
  have hoffset : cOffset tile mapping 0 + x % mapping.tileInLoop.C = x := by
    unfold cOffset
    rw [hC]
    exact Nat.div_add_mod' x _
  refine ⟨?_, hoffset⟩
  rw [h.cInLoop_eq]
  omega

theorem freshTile_inLoops {coreId : Int} {loop : Nat × Nat × Nat} (hloop : loop ∈ tileLoops mapping) :
    InLoops mapping (op.freshTile coreId loop) := by
  obtain ⟨hN, hM, hC⟩ := mem_tileLoops.mp hloop
  exact ⟨hN, hM, hC⟩

/-- The elements that are sampled are in range, where the loops come to their end. -/
theorem within_of_instructions (h : op.Tiling mapping layout N C M)
    (hall : ∀ loop ∈ tileLoops mapping,
      ∃ is, op.initializeInstructions (op.freshTile 0 loop) mapping = some is) {n : Nat}
    (hn : n < N) :
    (∀ c < C, op.elemsPerAccess ∣ c % mapping.tileInLoop.C → layout.Within N C n c) ∧
      ∀ m < M, op.elemsPerAccess ∣ m % op.loopSize → layout.Within N M n m := by
  have hN := (h.cut.cutN.locate hn).1
  have hlast := Nat.sub_add_cancel (h.cut.cutC.pos h.C_pos)
  constructor
  · intro c hc hdvd
    let loop := (n / mapping.tileInLoop.N, 0, c / mapping.tileInLoop.C)
    have hloop : loop ∈ tileLoops mapping :=
      mem_tileLoops.mpr ⟨hN, h.cut.cutM.pos h.M_pos, (h.cut.cutC.whole.locate hc).1⟩
    have hinputs :=
      ((h.exists_instructions_iff (freshTile_inLoops hloop)).mp (hall loop hloop)).1
    have hbatch : (op.freshTile 0 loop).batch = n / mapping.tileInLoop.N := rfl
    obtain ⟨ns, hns, n', hn', hoffset⟩ := h.nLoop_of_locate hn hbatch
    have hC : (op.freshTile 0 loop).C = c / mapping.tileInLoop.C := rfl
    obtain ⟨hc', hcoffset⟩ := h.cInLoop_of_locate hc hC
    have hwithin := (h.exists_activationMovin_iff ns 0).mp (hinputs ns hns) n' hn' _ hc' hdvd
    rwa [hoffset, hcoffset] at hwithin
  · intro m hm hdvd
    let loop := (n / mapping.tileInLoop.N, m / mapping.tileInLoop.M, mapping.tileOutLoop.C - 1)
    have hloop : loop ∈ tileLoops mapping :=
      mem_tileLoops.mpr ⟨hN, (h.cut.cutM.locate hm).1, by show _ - 1 < _; omega⟩
    have houtputs :=
      ((h.exists_instructions_iff (freshTile_inLoops hloop)).mp (hall loop hloop)).2
    have hbatch : (op.freshTile 0 loop).batch = n / mapping.tileInLoop.N := rfl
    obtain ⟨ns, hns, n', hn', hoffset⟩ := h.nLoop_of_locate hn hbatch
    have hM : (op.freshTile 0 loop).M = m / mapping.tileInLoop.M := rfl
    obtain ⟨ms, hms, hm', hmoffset⟩ := h.mLoop_of_locate hm hM
    have hstep : (ms, ns) ∈ op.storeSteps (op.freshTile 0 loop) mapping :=
      (h.mem_storeSteps (freshTile_inLoops hloop)).mpr ⟨hlast, hms, hns⟩
    have hwithin := (h.exists_movout_iff ms ns).mp (houtputs _ hstep) n' hn' _ hm' hdvd
    rwa [hoffset, hmoffset] at hwithin

/-- `initialize_tiles` comes to its end exactly if every element that it samples is in range. -/
theorem exists_initializeTiles_iff (h : op.Tiling mapping layout N C M) :
    (∃ tiles, op.initializeTiles mapping = some tiles) ↔ InRange op mapping layout N C M := by
  rw [h.exists_tiles_iff]
  constructor
  · rintro hall rfl
    have hwithin := fun n (hn : n < N) => h.within_of_instructions hall hn
    have hfirst := hwithin 0 h.N_pos
    have hlast := hwithin (N - 1) (by have := h.N_pos; omega)
    have hN := h.N_pos
    refine ⟨⟨?_, fun c hc hdvd => (hfirst.1 c hc hdvd).2⟩, ?_, fun m hm hdvd => (hfirst.2 m hm hdvd).2⟩
    · have hlt := (hlast.1 0 h.C_pos (by simp)).1
      omega
    · have hlt := (hlast.2 0 h.M_pos (by simp)).1
      omega
  · intro hrange loop hloop
    have htile : InLoops mapping (op.freshTile 0 loop) := freshTile_inLoops hloop
    rw [h.exists_instructions_iff htile]
    constructor
    · intro ns hns
      refine (h.exists_activationMovin_iff ns 0).mpr fun n hn c hc hdvd => ?_
      have hn' := h.nOffset_add_lt hn
      have hc' := h.cOffset_add_lt hc
      cases layout with
      | plain => exact ⟨hn', hc'⟩
      | batched b => exact ⟨hn', hc'⟩
      | transA =>
        obtain ⟨⟨hle, hcols⟩, -⟩ := hrange rfl
        exact ⟨by omega, hcols _ hc' (by rwa [h.cOffset_add_mod hc])⟩
    · intro p hp
      obtain ⟨-, hms, hns⟩ := (h.mem_storeSteps htile).mp hp
      refine (h.exists_movout_iff p.1 p.2).mpr fun n hn m hm hdvd => ?_
      have hn' := h.nOffset_add_lt hn
      have hm' := h.mOffset_add_lt hm
      cases layout with
      | plain => exact ⟨hn', hm'⟩
      | batched b => exact ⟨hn', hm'⟩
      | transA =>
        obtain ⟨-, hle, hcols⟩ := hrange rfl
        exact ⟨by omega, hcols _ hm' (by rwa [h.mOffset_add_mod hms hm])⟩

end Tiling

end Steps

end GemmWS

end OnnxSim
