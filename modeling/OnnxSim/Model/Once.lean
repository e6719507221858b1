import OnnxSim.Model.LanguageGraph

/-!
# An operation runs once

`set_layer_finish` puts the executable children of an operation into `_executable_layer`, and looks
at nothing else. A child that reads an output is not executable before, so it goes in once. The
constructor of `MambaBlock` adds the block as a child of its own outputs: when it finishes it goes in
again. In the graphs that the constructors build nothing else is put back
(`Graph.operations_run_once_iff`).
-/

namespace OnnxSim

namespace ModelRun

variable {init : Nat → Bool} {s u : ModelRun} {a : Act}

theorem step_sameGraph (hs : step s a = some u) : Model.SameGraph s.model u.model := by
  cases a with
  | getExecutableTile =>
    obtain ⟨⟨op, m⟩, hm, hs⟩ := Option.bind_eq_some_iff.mp hs
    obtain rfl := Option.some.inj hs
    exact Model.getExecutableTile_sameGraph hm
  | setLayerFinish id =>
    unfold step at hs
    simp only at hs
    split at hs
    · obtain ⟨m, hm, hs⟩ := Option.bind_eq_some_iff.mp hs
      obtain rfl := Option.some.inj hs
      exact Model.setLayerFinish_sameGraph hm
    · cases hs

end ModelRun

namespace Graph

/-- The graphs that the constructors of the operations build. -/
inductive Buildable : Graph → Prop
  | onnx {first : Nat} {p : GraphProto} {nrAtten : Option Int} {dims : List Nat} {g : Graph}
      (hg : build first p nrAtten dims = some g) : Buildable g
  | language {first sources : Nat} {layers : List LayerWeights} {garbage : Nat → Nat → Bool}
      (hinput : 0 < sources)
      (hlayers : ∀ w ∈ layers, ∀ t ∈ w.tensors, first ≤ t ∧ t < first + sources) :
      Buildable (buildLanguage first sources layers garbage)

/-- The step does not finish a `MambaBlock`. -/
def NoMambaFinishes (g : Graph) (_ : ModelRun) : ModelRun.Act → Prop
  | .getExecutableTile => True
  | .setLayerFinish id => id ∉ g.mambas

variable {g : Graph} {tiles : Nat → List Tile} {s u : ModelRun} {a : ModelRun.Act}

/-- What the constructors guarantee of a graph. -/
theorem Buildable.sound (hg : Buildable g) :
    Wiring g g.operations g.mambas ∧ g.Unmarked ∧ g.SelfRead := by
  cases hg with
  | onnx hg =>
    obtain ⟨written, hbuilt⟩ := build_built hg
    exact ⟨hbuilt.wiring, hbuilt.named.unmarked, hbuilt.selfs⟩
  | language hinput hlayers =>
    rename_i first sources layers garbage
    have hsound : (buildLanguage first sources layers garbage).Sound :=
      buildLanguage_sound hinput hlayers
    unfold SelfRead
    rw [hsound.mambas]
    exact ⟨hsound.wiring, hsound.unmarked, fun id hid => (nomatch hid)⟩

/-- The operations that are children of their own outputs when they finish are the blocks. -/
theorem Buildable.noSelfChild_iff (hg : Buildable g)
    (hsound : s.Sound (g.producedAtFirst tiles)) (hsame : (g.toModel tiles).SameGraph s.model)
    (honce : s.Once) (hs : s.step a = some u) : s.NoSelfChild a ↔ g.NoMambaFinishes s a := by
  obtain ⟨hwiring, -, hselfs⟩ := hg.sound
  cases a with
  | getExecutableTile => exact Iff.rfl
  | setLayerFinish id =>
    unfold ModelRun.step at hs
    simp only at hs
    split at hs
    · rename_i hcount
      have hreturned : id ∈ s.returned := List.count_pos_iff.mp (by omega)
      have hone : s.returned.count id ≤ 1 :=
        List.nodup_iff_count_le_one.mp (List.nodup_append.mp honce).1 id
      have hrunning : id ∉ s.finished := List.count_eq_zero.mp (by omega)
      refine not_congr ⟨fun hself => ?_, fun hmamba => ?_⟩
      · rcases hwiring.selfChild_cases (hsame.symm.selfChild hself) with hmamba | hreads
        · exact hmamba
        · -- an operation that reads its own output is never taken
          obtain ⟨x, hx, hid, t, htin, htout⟩ := hreads
          obtain ⟨y, hy, hwires⟩ := hsame.symm.exists_wires hx
          obtain ⟨hidy, hin, hout⟩ := Model.wires_eq hwires
          exact absurd (hout ▸ htout)
            (Model.Sound.not_reads_own hsound hreturned hrunning hy (hidy.trans hid) (hin ▸ htin))
      · exact hsame.selfChild (hselfs.selfChild hwiring tiles hmamba)
    · cases hs

/-- Each operation of a model is taken once, and none comes back, exactly in the runs in which no
`MambaBlock` finishes. -/
theorem operations_run_once_iff {h : List (ModelRun × ModelRun.Act)} (hg : Buildable g)
    (run : ModelRun.Run (g.toModel tiles) h s) :
    Machine.Always ModelRun.Once h s ↔ Machine.EachStep g.NoMambaFinishes h := by
  obtain ⟨hwiring, hunmarked, -⟩ := hg.sound
  obtain ⟨hsound, honce⟩ := hwiring.sound hunmarked tiles
  have hiff := Machine.Run.always_iff_eachStep (P := ModelRun.Once) (R := fun _ _ => True)
    (C := g.NoMambaFinishes)
    (I := fun s => s.Sound (g.producedAtFirst tiles) ∧ (g.toModel tiles).SameGraph s.model)
    run ⟨hsound, Model.SameGraph.refl _⟩
    (fun _ _ _ hI hs => ⟨hI.1.step hs, hI.2.trans (ModelRun.step_sameGraph hs)⟩) honce
    (fun _ _ _ hI hP hs => by
      rw [and_true, hI.1.once_iff hP hs]
      exact hg.noSelfChild_iff hI.1 hI.2 hP hs)
  exact ⟨fun h => hiff.mp ⟨h, fun _ _ => trivial⟩, fun h => (hiff.mpr h).1⟩

/-! ## Initialised models -/

end Graph

/-- The model of a graph that the constructors build, with some tiles. -/
def Model.Initialised (m : Model) : Prop :=
  ∃ g tiles, Graph.Buildable g ∧ m.tensorMap = (g.toModel tiles).tensorMap ∧
    m.operationMap = (g.toModel tiles).operationMap ∧
    m.executableLayer = (g.toModel tiles).executableLayer

/-- Where nothing but the fields that no function of the graph reads differs. -/
theorem Model.Sound.congr {init : Nat → Bool} {returned finished : List Nat} {m m' : Model}
    (h : m.Sound init returned finished) (htensors : m'.tensorMap = m.tensorMap)
    (hops : m'.operationMap = m.operationMap) (hexec : m'.executableLayer = m.executableLayer) :
    m'.Sound init returned finished := by
  obtain ⟨hwired, hproduced, hfinish, hready, htaken⟩ := h
  have hsame : SameGraph m m' := ⟨by rw [hops], fun t => by rw [htensors]⟩
  refine ⟨hwired.same hsame, ?_, ?_, ?_, htaken⟩
  · rw [htensors, hops]
    exact hproduced
  · rw [hops]
    exact hfinish
  · unfold checkExecutable at hready ⊢
    rw [htensors, hops, hexec]
    exact hready

theorem Model.Initialised.sound {m : Model} (h : m.Initialised) :
    ∃ init, m.Sound init [] [] ∧ m.Once [] := by
  obtain ⟨g, tiles, hg, htensors, hops, hexec⟩ := h
  obtain ⟨hwiring, hunmarked, -⟩ := hg.sound
  obtain ⟨hsound, honce⟩ := hwiring.sound hunmarked tiles
  refine ⟨_, hsound.congr htensors hops hexec, ?_⟩
  unfold Model.Once at honce ⊢
  rwa [hexec]

namespace Graph

/-! ## Examples -/

def oneTile (id : Nat) : List Tile := [{ layerId := id }]

/-- An ONNX file with one operation. -/
def oneNode : GraphProto where
  inputs := [("x", [4])]
  initializers := []
  nodes := [{ opType := .plain, inputs := ["x"], outputs := [("y", [4])] }]
  ssa := by simp
  sources := by simp

def oneGraph : Graph where
  tensors := [{ id := 0, name := "x", dims := [4], produced := true, childNodes := [1] },
    { id := 2, name := "y", dims := [4], srcNode := 1 }]
  operations := [{ id := 1, inputs := [0], outputs := [2] }]
  nextId := 3

theorem build_oneNode : build 0 oneNode none [] = some oneGraph := rfl

/-- The operation of a graph without a block is taken and finishes. -/
theorem operations_run_once_oneNode : ∃ h s, ModelRun.Run (oneGraph.toModel oneTile) h s ∧
    h.map Prod.snd = [.getExecutableTile, .setLayerFinish 1] ∧ Machine.Always ModelRun.Once h s := by
  have hrun : ∃ s, [.getExecutableTile, .setLayerFinish 1].foldlM ModelRun.step
      { model := oneGraph.toModel oneTile } = some s := ⟨_, rfl⟩
  obtain ⟨s, hrun⟩ := hrun
  obtain ⟨h, hacts, run⟩ := Machine.Run.of_foldlM hrun
  refine ⟨h, s, run, hacts, (operations_run_once_iff (.onnx build_oneNode) run).mpr ?_⟩
  intro p _
  unfold NoMambaFinishes
  split
  · trivial
  · exact fun hmem => (nomatch hmem)

/-- The weights of a block with `d_model` 2, `d_inner` 4, `d_conv` 2, `d_state` 2 and `dt_rank` 1. -/
def mambaWeights : List (String × List Nat) :=
  [("w_in", [8, 2]), ("w_conv", [4, 1, 2]), ("b_conv", [4]), ("w_xproj", [5, 4]), ("w_dt", [4, 1]),
    ("b_dt", [4]), ("A_log", [4, 2]), ("D", [4]), ("w_out", [2, 4])]

def mambaStates : List (String × List Nat) :=
  [("x", [1, 2]), ("conv_state", [1, 4, 2]), ("ssm_state", [1, 4, 2])]

/-- An ONNX file with one `MambaBlock`. -/
def mambaNode : GraphProto where
  inputs := mambaStates
  initializers := mambaWeights
  nodes := [{ opType := .mambaBlock, inputs := (mambaStates ++ mambaWeights).map (·.1)
              outputs := [("y", [1, 2])] }]
  ssa := by simp
  sources := by simp [mambaStates, mambaWeights]

def mambaGraph : Graph where
  tensors := ((mambaWeights ++ mambaStates).zipIdx.map fun (source, id) =>
    { id := id, name := source.1, dims := source.2, produced := true, childNodes := [12] }) ++
    [{ id := 13, name := "y", dims := [1, 2], srcNode := 12, childNodes := [12] }]
  operations := [{ id := 12, inputs := [9, 10, 11, 0, 1, 2, 3, 4, 5, 6, 7, 8], outputs := [13] }]
  nextId := 14
  mambas := [12]

theorem build_mambaNode : build 0 mambaNode none [] = some mambaGraph := rfl

/-- A `MambaBlock` that finishes is back in `_executable_layer`, and is taken again. -/
theorem operation_runs_twice : ∃ h s, Buildable mambaGraph ∧
    ModelRun.Run (mambaGraph.toModel oneTile) h s ∧
    h.map Prod.snd = [.getExecutableTile, .setLayerFinish 12, .getExecutableTile] ∧
    s.returned = [12, 12] ∧ ¬ Machine.Always ModelRun.Once h s := by
  have hrun : ∃ s, [.getExecutableTile, .setLayerFinish 12, .getExecutableTile].foldlM
      ModelRun.step { model := mambaGraph.toModel oneTile } = some s ∧ s.returned = [12, 12] :=
    ⟨_, rfl, rfl⟩
  obtain ⟨s, hrun, hreturned⟩ := hrun
  obtain ⟨h, hacts, run⟩ := Machine.Run.of_foldlM hrun
  refine ⟨h, s, .onnx build_mambaNode, run, hacts, hreturned, fun halways => ?_⟩
  have honce : (s.returned ++ s.model.executableLayer).Nodup := halways.2
  rw [hreturned] at honce
  simp at honce

end Graph

end OnnxSim
