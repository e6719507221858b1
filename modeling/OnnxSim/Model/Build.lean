import OnnxSim.Model

/-!
# Building the graph of a model

`Model::initialize_model` with the constructors of the operations, as far as they wire tensors and
operations, and `LanguageModel::initialize_model`. The shapes that a class computes are part of its
node; a class registers the outputs that its node lists. The sizes of the tiles and what else the
constructors compute are left out: an initialised model has any tiles. An exception and an index out
of range are `none`.
-/

namespace OnnxSim

/-- A tensor as the constructors see it. -/
structure GraphTensor where
  id : Nat
  name : String
  dims : List Nat
  srcNode : Nat := 0
  produced : Bool := false
  childNodes : List Nat := []
  deriving Repr

/-- The classes that wire their tensors in their own way; `plain` is any other. -/
inductive OpType
  | plain
  | mambaBlock
  | attention
  | skipLayerNormalization
  deriving Repr, DecidableEq

/-- A node of the ONNX file, with the outputs that its class registers and the shapes it gives
them. -/
structure NodeProto where
  opType : OpType
  inputs : List String
  outputs : List (String × List Nat)

/-- The graph of an ONNX file, in single static assignment form. -/
structure GraphProto where
  /-- The inputs and their shapes. -/
  inputs : List (String × List Nat)
  initializers : List (String × List Nat)
  nodes : List NodeProto
  ssa : ((nodes.flatMap (·.outputs)).map (·.1)).Nodup
  sources : ∀ name ∈ (nodes.flatMap (·.outputs)).map (·.1),
    name ∉ inputs.map (·.1) ∧ name ∉ initializers.map (·.1)

structure Graph where
  /-- `_tensor_map`, in the order of the identifiers. -/
  tensors : List GraphTensor := []
  /-- `_operation_map`. -/
  operations : List Operation := []
  /-- What `generate_id` returns next. -/
  nextId : Nat := 0
  /-- The operations whose `_optype` is `Attention`. -/
  attentions : List Nat := []
  /-- The `MambaBlock` operations. No function reads this field. -/
  mambas : List Nat := []

namespace Graph

/-- `find_tensor`. -/
def findTensor (g : Graph) (name : String) : Option GraphTensor := g.tensors.find? (·.name == name)

/-- A new tensor of operation `src`. -/
def newTensor (g : Graph) (name : String) (dims : List Nat) (src : Nat) (produced : Bool) :
    Nat × Graph :=
  (g.nextId, { g with
    tensors := g.tensors ++
      [{ id := g.nextId, name := name, dims := dims, srcNode := src, produced := produced }]
    nextId := g.nextId + 1 })

/-- `add_child_node` of tensor `t`. -/
def addChildNode (g : Graph) (t op : Nat) : Graph :=
  { g with
    tensors := g.tensors.map fun T =>
      if T.id = t then { T with childNodes := T.childNodes ++ [op] } else T }

/-- The tensor of an input; one that does not exist yet is made, with no shape. -/
def inputTensor (g : Graph) (name : String) : Nat × Graph :=
  match g.findTensor name with
  | some T => (T.id, g)
  | none => g.newTensor name [] 0 false

/-- The loop of the base constructor. -/
def readInputs (op : Nat) : List String → Graph → List Nat × Graph
  | [], g => ([], g)
  | name :: rest, g =>
    if name = "" then readInputs op rest g
    else
      let (t, g) := g.inputTensor name
      let (ts, g) := readInputs op rest (g.addChildNode t op)
      (t :: ts, g)

/-- `redefine_tensor`: the shape of a tensor that has none, or has this one already. -/
def redefineTensor (g : Graph) (T : GraphTensor) (src : Nat) (dims : List Nat) : Option Graph :=
  if T.dims = [] then
    some { g with tensors := g.tensors.map fun U =>
      if U.id = T.id then { U with srcNode := src, dims := dims } else U }
  else if src = T.srcNode ∧ dims = T.dims then some g
  else none

/-- An output of an operation of most classes: it is registered when the tensor is new. -/
def writeOutput (g : Graph) (op : Nat) (output : String × List Nat) : Option (List Nat × Graph) :=
  match g.findTensor output.1 with
  | none =>
    let (t, g) := g.newTensor output.1 output.2 op false
    some ([t], g)
  | some T => do
    let g ← g.redefineTensor T op output.2
    some ([], g)

/-- An output of a `MambaBlock`: it is always registered, with the block as a child. -/
def writeMambaOutput (g : Graph) (op : Nat) (output : String × List Nat) :
    Option (List Nat × Graph) :=
  match g.findTensor output.1 with
  | none =>
    let (t, g) := g.newTensor output.1 output.2 op false
    some ([t], g.addChildNode t op)
  | some T => do
    let g ← g.redefineTensor T op output.2
    some ([T.id], g.addChildNode T.id op)

def writeOutputs (write : Graph → Nat → String × List Nat → Option (List Nat × Graph)) (op : Nat) :
    List (String × List Nat) → Graph → Option (List Nat × Graph)
  | [], g => some ([], g)
  | output :: rest, g => do
    let (ts, g) ← write g op output
    let (ts', g) ← writeOutputs write op rest g
    some (ts ++ ts', g)

/-- The constructor of a node's class. -/
def createOperation (g : Graph) (node : NodeProto) : Option Graph :=
  let id := g.nextId
  let (inputs, g) := readInputs id node.inputs { g with nextId := g.nextId + 1 }
  match node.opType with
  | .mambaBlock =>
    if node.outputs = [] then none
    else do
      let (outputs, g) ← writeOutputs writeMambaOutput id node.outputs g
      some { g with
        operations := g.operations ++ [{ id := id, inputs := inputs, outputs := outputs }]
        mambas := g.mambas ++ [id] }
  | .attention => do
    let (outputs, g) ← writeOutputs writeOutput id node.outputs g
    some { g with
      operations := g.operations ++ [{ id := id, inputs := inputs, outputs := outputs }]
      attentions := g.attentions ++ [id] }
  | .plain | .skipLayerNormalization => do
    let (outputs, g) ← writeOutputs writeOutput id node.outputs g
    some { g with
      operations := g.operations ++ [{ id := id, inputs := inputs, outputs := outputs }] }

/-- The outputs of an operation are cleared. -/
def clearOutputs (g : Graph) (id : Nat) : Graph :=
  { g with operations := g.operations.map fun op =>
      if op.id = id then { op with outputs := [] } else op }

/-- The loop over the nodes. `nrAtten` is `nr_atten`, where the configuration has it: the last
attention block that it asks for ends the graph. -/
def createOperations (nrAtten : Option Int) : List NodeProto → Nat → Graph → Option Graph
  | [], _, g => some g
  | node :: rest, nrSkip, g => do
    let nodeId := g.nextId
    let g ← g.createOperation node
    match node.opType, nrAtten with
    | .skipLayerNormalization, some n =>
      if n = -1 then createOperations nrAtten rest nrSkip g
      else if ((nrSkip + 1 : Nat) : Int) ≥ n * 2 then some (g.clearOutputs nodeId)
      else createOperations nrAtten rest (nrSkip + 1) g
    | _, _ => createOperations nrAtten rest nrSkip g

/-- `add_child_node` of each of the tensors. -/
def addChildNodes (op : Nat) (ts : List Nat) (g : Graph) : Graph :=
  ts.foldl (fun g t => g.addChildNode t op) g

/-- Three tensors for the key, the query and the value of an attention operation. -/
def newProjections (g : Graph) (op : Nat) (dims : List Nat) : List Nat × Graph :=
  let (key, g) := g.newTensor "" dims op false
  let (query, g) := g.newTensor "" dims op false
  let (value, g) := g.newTensor "" dims op false
  ([key, query, value], g)

/-- The inputs of operation `op` are extended. -/
def readProjections (op : Nat) (ts : List Nat) (o : Operation) : Operation :=
  if o.id = op then { o with inputs := o.inputs ++ ts } else o

/-- The wiring of `initialize_onnx_tiles`: a projection node computes the key, the query and the
value. -/
def projectAttention (g : Graph) (dims : List Nat) (op : Nat) : Option Graph := do
  let attention ← g.operations.find? (·.id == op)
  let in0 ← attention.inputs[0]?
  let in1 ← attention.inputs[1]?
  let in2 ← attention.inputs[2]?
  let id := g.nextId
  let (outputs, g) := newProjections { g with nextId := g.nextId + 1 } op dims
  let g := addChildNodes id [in0, in1, in2, in0] g
  let g := addChildNodes op outputs g
  some { g with
    operations := g.operations.map (readProjections op outputs) ++
      [{ id := id, inputs := [in0, in1, in2], outputs := outputs }] }

/-- The inputs and the weights have been produced; `first` is what `generate_id` returns next. -/
def start (first : Nat) (p : GraphProto) : Graph :=
  (p.initializers ++ p.inputs).foldl (fun g source => (g.newTensor source.1 source.2 0 true).2)
    { nextId := first }

/-- The graph that `initialize_model` builds. -/
def build (first : Nat) (p : GraphProto) (nrAtten : Option Int) (projectionDims : List Nat) :
    Option Graph := do
  let g ← createOperations nrAtten p.nodes 0 (start first p)
  g.attentions.foldlM (fun g op => g.projectAttention projectionDims op) g

/-- The model that a graph is for: with some tiles, and the operations that are executable. -/
def toModel (g : Graph) (tiles : Nat → List Tile) : Model :=
  let m : Model :=
    { tensorMap := fun t => match g.tensors.find? (·.id == t) with
        | some T => { produced := T.produced, childNodes := T.childNodes }
        | none => {}
      operationMap := g.operations.map fun op => { op with tiles := tiles op.id }
      executableLayer := [] }
  { m with executableLayer := (m.operationMap.filter m.checkExecutable).map (·.id) }

/-! ## Language models -/

/-- New tensors of operation `src`. The flags say which of them are produced: `_produced` of some is
not initialised. -/
def newTensors (src : Nat) : List Bool → Graph → List Nat × Graph
  | [], g => ([], g)
  | produced :: rest, g =>
    let (t, g) := g.newTensor "" [] src produced
    let (ts, g) := newTensors src rest g
    (t :: ts, g)

/-- An operation of a language model: its inputs are tensors that exist, its outputs are new. -/
def addOperation (g : Graph) (inputs : List Nat) (flags : List Bool) : List Nat × Graph :=
  let id := g.nextId
  let (outputs, g) := newTensors id flags (addChildNodes id inputs { g with nextId := id + 1 })
  (outputs, { g with
    operations := g.operations ++ [{ id := id, inputs := inputs, outputs := outputs }] })

/-- The tensors of a layer that exist before it: its weights and the caches of each batch. -/
structure LayerWeights where
  qkvWeight : Nat
  qkvBias : Nat
  projWeight : Nat
  projBias : Nat
  lnWeight : Nat
  lnBias : Nat
  ffn1Weight : Nat
  ffn1Bias : Nat
  ffn2Weight : Nat
  ffn2Bias : Nat
  ffnLnWeight : Nat
  ffnLnBias : Nat
  caches : List (Nat × Nat)

/-- The tensors that a layer names. -/
def LayerWeights.tensors (w : LayerWeights) : List Nat :=
  [w.qkvWeight, w.qkvBias, w.projWeight, w.projBias, w.lnWeight, w.lnBias, w.ffn1Weight, w.ffn1Bias,
    w.ffn2Weight, w.ffn2Bias, w.ffnLnWeight, w.ffnLnBias] ++ w.caches.flatMap fun c => [c.1, c.2]

/-- The attention operation of each batch, on its query, key and value. -/
def addAttentions : List Nat → Graph → List Nat × Graph
  | query :: key :: value :: rest, g =>
    let (outputs, g) := g.addOperation [query, key, value] [false]
    let (outputs', g) := addAttentions rest g
    (outputs ++ outputs', g)
  | _, g => ([], g)

/-- An operation with one output. -/
def addOne (inputs : List Nat) (g : Graph) : Nat × Graph :=
  ((g.addOperation inputs [false]).1.headD 0, (g.addOperation inputs [false]).2)

/-- The attention of a layer over the activations `input`, up to the concatenation of its batches.
`garbage` are the flags of the key and the value outputs of the cache operation, which nothing
initialises. -/
def addAttention (w : LayerWeights) (garbage : Nat → Bool) (input : Nat) (g : Graph) :
    Nat × Graph :=
  let (qkv, g) := addOne [input, w.qkvWeight, w.qkvBias] g
  let flags := (List.range w.caches.length).flatMap fun b =>
    [false, garbage (2 * b), garbage (2 * b + 1)]
  let (outputs, g) := g.addOperation (qkv :: w.caches.flatMap fun c => [c.1, c.2]) flags
  let (attentions, g) := addAttentions outputs g
  addOne attentions g

/-- The projection of the attention, and the normalization of its sum with the activations. -/
def addProjection (w : LayerWeights) (input concat : Nat) (g : Graph) : Nat × Graph :=
  let (proj, g) := addOne [concat, w.projWeight, w.projBias] g
  addOne [input, proj, w.lnWeight, w.lnBias] g

def addFeedForward (w : LayerWeights) (ln : Nat) (g : Graph) : Nat × Graph :=
  let (ffn1, g) := addOne [ln, w.ffn1Weight] g
  let (act, g) := addOne [ffn1, w.ffn1Bias] g
  let (ffn2, g) := addOne [act, w.ffn2Weight, w.ffn2Bias] g
  addOne [ln, ffn2, w.ffnLnWeight, w.ffnLnBias] g

/-- A layer of a language model over the activations `input`. -/
def addLayer (w : LayerWeights) (garbage : Nat → Bool) (input : Nat) (g : Graph) : Nat × Graph :=
  let (concat, g) := addAttention w garbage input g
  let (ln, g) := addProjection w input concat g
  addFeedForward w ln g

def addLayers (garbage : Nat → Nat → Bool) : List LayerWeights → Nat → Graph → Graph
  | [], _, g => g
  | w :: rest, input, g =>
    let (output, g) := addLayer w (garbage rest.length) input g
    addLayers garbage rest output g

/-- The weights, the caches and the activations have been produced. -/
def startLanguage (first sources : Nat) : Graph :=
  (List.range sources).foldl (fun g _ => (g.newTensor "" [] 0 true).2) { nextId := first }

/-- The graph that `LanguageModel::initialize_model` builds; tensor `first` is the input, and the
layers name their weights and caches among the first `sources` tensors. -/
def buildLanguage (first sources : Nat) (layers : List LayerWeights) (garbage : Nat → Nat → Bool) :
    Graph :=
  addLayers garbage layers first (startLanguage first sources)

end Graph

end OnnxSim
