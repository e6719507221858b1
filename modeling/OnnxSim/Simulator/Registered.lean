import OnnxSim.Model.Numbering
import OnnxSim.Scheduler.Board
import OnnxSim.Simulator.Cycle

/-!
# The models that are registered

`main` registers a model by its ONNX file, a language scheduler one of the models of
`LanguageModel::initialize_model`. Either builds its operations when it is launched, and numbers them
from what `generate_id` returns then (`PendingModel.Builds`).
-/

namespace OnnxSim

/-- `initialize_model` builds a graph as the constructors do, with new identifiers. -/
def PendingModel.Builds (p : PendingModel) : Prop :=
  ∀ n m n', p.initializeModel n = some (m, n') → m.val.Initialised ∧ n ≤ n' ∧
    ∀ id ∈ m.val.ids, n ≤ id ∧ id < n'

namespace Graph

/-- The tiles of the operations, each with the identifier of its operation. -/
def tagTiles (tiles : Nat → List Tile) (id : Nat) : List Tile :=
  (tiles id).map fun t => { t with layerId := id }

theorem toModel_tagged (g : Graph) (tiles : Nat → List Tile) : (g.toModel (tagTiles tiles)).Tagged := by
  intro x hx t ht
  obtain ⟨y, -, rfl⟩ := List.mem_map.mp hx
  obtain ⟨u, -, rfl⟩ := List.mem_map.mp ht
  rfl

theorem toModel_ids (g : Graph) (tiles : Nat → List Tile) :
    (g.toModel tiles).ids = g.operations.map (·.id) := by
  unfold Model.ids toModel
  rw [List.map_map]
  rfl

theorem Buildable.builds {g : Graph} {first : Nat} (hg : Buildable g) (hnumbered : g.Numbered first)
    (hbelow : ∀ op ∈ g.operations, op.id < g.nextId) (tiles : Nat → List Tile) :
    (g.toModel tiles).Initialised ∧ first ≤ g.nextId ∧
      ∀ id ∈ (g.toModel tiles).ids, first ≤ id ∧ id < g.nextId := by
  refine ⟨⟨g, tiles, hg, rfl, rfl, rfl⟩, hnumbered.next, fun id hid => ?_⟩
  rw [toModel_ids] at hid
  obtain ⟨op, hop, rfl⟩ := List.mem_map.mp hid
  exact ⟨hnumbered.ids op hop, hbelow op hop⟩

end Graph

namespace PendingModel

/-- `Model::initialize_model`. -/
def ofFile (requestTime : Nat) (p : GraphProto) (nrAtten : Option Int) (projectionDims : List Nat)
    (tiles : Nat → List Tile) : PendingModel where
  requestTime := requestTime
  initializeModel n := (Graph.build n p nrAtten projectionDims).map fun g =>
    (⟨g.toModel (Graph.tagTiles tiles), g.toModel_tagged tiles⟩, g.nextId)

theorem ofFile_builds (requestTime : Nat) (p : GraphProto) (nrAtten : Option Int)
    (projectionDims : List Nat) (tiles : Nat → List Tile) :
    (ofFile requestTime p nrAtten projectionDims tiles).Builds := by
  intro n m n' hm
  obtain ⟨g, hg, hgm⟩ := Option.map_eq_some_iff.mp hm
  obtain ⟨rfl, rfl⟩ := Prod.mk.inj hgm
  obtain ⟨hnumbered, hbelow⟩ := Graph.build_numbered hg
  exact (Graph.Buildable.onnx hg).builds hnumbered hbelow _

/-- `LanguageModel::initialize_model`; `layers n` are the tensors of the layers where the first tensor is
`n`. -/
def ofLanguage (requestTime sources : Nat) (layers : Nat → List Graph.LayerWeights)
    (garbage : Nat → Nat → Bool) (tiles : Nat → List Tile) : PendingModel where
  requestTime := requestTime
  initializeModel n :=
    let g := Graph.buildLanguage n sources (layers n) garbage
    some (⟨g.toModel (Graph.tagTiles tiles), g.toModel_tagged tiles⟩, g.nextId)

theorem ofLanguage_builds {requestTime sources : Nat} {layers : Nat → List Graph.LayerWeights}
    {garbage : Nat → Nat → Bool} {tiles : Nat → List Tile} (hinput : 0 < sources)
    (hlayers : ∀ n, ∀ w ∈ layers n, ∀ t ∈ w.tensors, n ≤ t ∧ t < n + sources) :
    (ofLanguage requestTime sources layers garbage tiles).Builds := by
  intro n m n' hm
  obtain ⟨rfl, rfl⟩ := Prod.mk.inj (Option.some.inj hm)
  exact (Graph.Buildable.language hinput (hlayers n)).builds (Graph.buildLanguage_numbered hinput (hlayers n)).1
    (Graph.buildLanguage_numbered hinput (hlayers n)).2 _

end PendingModel

end OnnxSim
