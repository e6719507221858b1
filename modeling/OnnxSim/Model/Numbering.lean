import OnnxSim.Model.Once

/-!
# The identifiers of a graph

The constructors number the operations of a model from what `generate_id` returns next: the operations of
a graph that is built from `first` on have identifiers from `first` up to what `generate_id` returns
afterwards (`Graph.build_numbered`, `Graph.buildLanguage_numbered`).
-/

namespace OnnxSim

namespace Graph

variable {g g' : Graph} {first : Nat}

/-- The graph has been numbered from `first` on. -/
structure Numbered (first : Nat) (g : Graph) : Prop where
  next : first ≤ g.nextId
  ids : ∀ op ∈ g.operations, first ≤ op.id

theorem Numbered.extends (h : g.Numbered first) (hext : Extends g g') : g'.Numbered first :=
  ⟨h.next.trans hext.nextId, hext.operations ▸ h.ids⟩

/-- One more operation, with the next identifier. -/
theorem Numbered.add {f : Operation → Operation} (h : g.Numbered first)
    (hf : ∀ o, (f o).id = o.id)
    (hops : ∃ op, op.id = g.nextId ∧ g'.operations = g.operations.map f ++ [op])
    (hnext : g.nextId ≤ g'.nextId) : g'.Numbered first := by
  refine ⟨h.next.trans hnext, ?_⟩
  obtain ⟨op, hid, hops⟩ := hops
  rw [hops]
  intro o ho
  rcases List.mem_append.mp ho with ho | ho
  · obtain ⟨o', ho', rfl⟩ := List.mem_map.mp ho
    exact hf o' ▸ h.ids o' ho'
  · rw [List.mem_singleton.mp ho, hid]
    exact h.next

/-! ## ONNX files -/

theorem Numbered.createOperation {node : NodeProto} {written sources : List String}
    (h : g.Numbered first) (hcreated : Created g g' node written sources) : g'.Numbered first := by
  obtain ⟨op, hid, hops⟩ := hcreated.operations
  have hbelow := hcreated.built.wiring.opsBelow op (hops ▸ by simp)
  exact h.add (f := id) (fun _ => rfl) ⟨op, hid, by rw [hops, List.map_id]⟩ (by omega)

theorem Numbered.clearOutputs (h : g.Numbered first) (id : Nat) : (g.clearOutputs id).Numbered first := by
  refine ⟨h.next, fun o ho => ?_⟩
  obtain ⟨o', ho', rfl⟩ := List.mem_map.mp ho
  have hid := h.ids o' ho'
  split <;> exact hid

theorem createOperations_numbered {nrAtten : Option Int} {nodes : List NodeProto} {nrSkip : Nat}
    {written sources : List String} (h : g.Numbered first) (hbuilt : Built g written sources)
    (hnew : NewNodes nodes written sources)
    (hg : createOperations nrAtten nodes nrSkip g = some g') : g'.Numbered first := by
  induction nodes generalizing g written nrSkip with
  | nil =>
    rw [createOperations] at hg
    exact Option.some.inj hg ▸ h
  | cons node rest ih =>
    rw [createOperations] at hg
    obtain ⟨u, hu, hg⟩ := Option.bind_eq_some_iff.mp hg
    have hcreated := createOperation_sound hbuilt hnew.head hu
    have hnumbered := h.createOperation hcreated
    split at hg
    · split at hg
      · exact ih hnumbered hcreated.built hnew.tail hg
      · split at hg
        · exact Option.some.inj hg ▸ hnumbered.clearOutputs g.nextId
        · exact ih hnumbered hcreated.built hnew.tail hg
    · exact ih hnumbered hcreated.built hnew.tail hg

theorem addChildNodes_operations (op : Nat) (ts : List Nat) (g : Graph) :
    (addChildNodes op ts g).operations = g.operations ∧
      (addChildNodes op ts g).nextId = g.nextId := by
  induction ts generalizing g with
  | nil => exact ⟨rfl, rfl⟩
  | cons t ts ih => exact ih (g.addChildNode t op)

theorem Numbered.projectAttention {op : Nat} {dims : List Nat} (h : g.Numbered first)
    (hg : g.projectAttention dims op = some g') : g'.Numbered first := by
  obtain ⟨attention, -, hg⟩ := Option.bind_eq_some_iff.mp hg
  obtain ⟨in0, -, hg⟩ := Option.bind_eq_some_iff.mp hg
  obtain ⟨in1, -, hg⟩ := Option.bind_eq_some_iff.mp hg
  obtain ⟨in2, -, hg⟩ := Option.bind_eq_some_iff.mp hg
  have hnew : (newProjections { g with nextId := g.nextId + 1 } op dims).2.operations =
      g.operations ∧
      g.nextId ≤ (newProjections { g with nextId := g.nextId + 1 } op dims).2.nextId := by
    refine ⟨rfl, ?_⟩
    simp only [newProjections, newTensor]
    omega
  simp only at hg
  generalize newProjections { g with nextId := g.nextId + 1 } op dims = projections at hg hnew
  obtain ⟨outs, u⟩ := projections
  obtain ⟨hops, hnext⟩ : u.operations = g.operations ∧ g.nextId ≤ u.nextId := hnew
  obtain ⟨hops₁, hnext₁⟩ := addChildNodes_operations g.nextId [in0, in1, in2, in0] u
  obtain ⟨hops₂, hnext₂⟩ := addChildNodes_operations op outs
    (addChildNodes g.nextId [in0, in1, in2, in0] u)
  obtain rfl := Option.some.inj hg
  refine h.add (readProjections_id op outs)
    ⟨{ id := g.nextId, inputs := [in0, in1, in2], outputs := outs }, rfl, ?_⟩ ?_
  · simp only [hops₂, hops₁, hops]
  · simp only [hnext₂, hnext₁]
    exact hnext

theorem numbered_empty (first : Nat) : ({ nextId := first } : Graph).Numbered first :=
  ⟨le_rfl, fun _ ho => (nomatch ho)⟩

/-- The graph of an ONNX file. -/
theorem build_numbered {p : GraphProto} {nrAtten : Option Int} {dims : List Nat}
    (hg : build first p nrAtten dims = some g) : g.Numbered first ∧ ∀ op ∈ g.operations, op.id < g.nextId := by
  obtain ⟨written, hbuilt⟩ := build_built hg
  refine ⟨?_, hbuilt.wiring.opsBelow⟩
  obtain ⟨u, hu, hg⟩ := Option.bind_eq_some_iff.mp hg
  have hstart : (start first p).Numbered first := by
    have hempty : Named { nextId := first } [] [] (sourceNames p) :=
      ⟨fun _ ho => (nomatch ho), fun _ hT => (nomatch hT)⟩
    obtain ⟨-, -, hext⟩ := foldl_newTensor_sound (p.initializers ++ p.inputs) (wiring_empty first)
      hempty fun source hsource => List.mem_map_of_mem hsource
    exact (numbered_empty first).extends hext
  have hnew : NewNodes p.nodes [] (sourceNames p) := by
    refine ⟨p.ssa, fun name _ hmem => (nomatch hmem), fun name hname hmem => ?_⟩
    obtain ⟨hin, hinit⟩ := p.sources name hname
    unfold sourceNames at hmem
    rw [List.map_append] at hmem
    exact (List.mem_append.mp hmem).elim hinit hin
  have hnumbered := createOperations_numbered hstart (start_built first p) hnew hu
  clear hu
  generalize u.attentions = attentions at hg
  induction attentions generalizing u with
  | nil => exact Option.some.inj hg ▸ hnumbered
  | cons op attentions ih =>
    rw [List.foldlM_cons] at hg
    obtain ⟨v, hv, hg⟩ := Option.bind_eq_some_iff.mp hg
    exact ih v (hnumbered.projectAttention hv) hg

/-! ## Language models -/

theorem newTensors_next (src : Nat) (flags : List Bool) (g : Graph) :
    (newTensors src flags g).2.operations = g.operations ∧
      g.nextId ≤ (newTensors src flags g).2.nextId := by
  induction flags generalizing g with
  | nil => exact ⟨rfl, le_rfl⟩
  | cons produced rest ih =>
    obtain ⟨hops, hnext⟩ := ih (g.newTensor "" [] src produced).2
    exact ⟨hops, (Nat.le_succ _).trans hnext⟩

theorem Numbered.addOperation (h : g.Numbered first) (inputs : List Nat) (flags : List Bool) :
    (g.addOperation inputs flags).2.Numbered first := by
  obtain ⟨hops₁, hnext₁⟩ := addChildNodes_operations g.nextId inputs { g with nextId := g.nextId + 1 }
  obtain ⟨hops₂, hnext₂⟩ := newTensors_next g.nextId flags
    (addChildNodes g.nextId inputs { g with nextId := g.nextId + 1 })
  unfold Graph.addOperation
  simp only
  generalize newTensors g.nextId flags
    (addChildNodes g.nextId inputs { g with nextId := g.nextId + 1 }) = made at hops₂ hnext₂ ⊢
  refine h.add (f := id) (fun _ => rfl)
    ⟨{ id := g.nextId, inputs := inputs, outputs := made.1 }, rfl, ?_⟩ ?_
  · rw [List.map_id, hops₂, hops₁]
  · rw [hnext₁] at hnext₂
    exact (Nat.le_succ _).trans hnext₂

theorem Numbered.addOne (h : g.Numbered first) (inputs : List Nat) :
    (addOne inputs g).2.Numbered first :=
  h.addOperation inputs [false]

theorem Numbered.addAttentions (h : g.Numbered first) (projections : List Nat) :
    (addAttentions projections g).2.Numbered first := by
  fun_induction Graph.addAttentions projections g with
  | case1 query key value rest g outputs u hu outputs' v hv ih =>
    have hnumbered : u.Numbered first := by
      have hone := h.addOperation [query, key, value] [false]
      rwa [hu] at hone
    have hall := ih hnumbered
    rwa [hv] at hall
  | case2 => exact h

theorem Numbered.addLayer (h : g.Numbered first) (w : LayerWeights) (garbage : Nat → Bool)
    (input : Nat) : (addLayer w garbage input g).2.Numbered first := by
  have hattention : (addAttention w garbage input g).2.Numbered first :=
    (((h.addOne _).addOperation _ _).addAttentions _).addOne _
  have hprojection : (addProjection w input (addAttention w garbage input g).1
      (addAttention w garbage input g).2).2.Numbered first := (hattention.addOne _).addOne _
  exact (((hprojection.addOne _).addOne _).addOne _).addOne _

theorem Numbered.addLayers {garbage : Nat → Nat → Bool} {layers : List LayerWeights} {input : Nat}
    (h : g.Numbered first) : (addLayers garbage layers input g).Numbered first := by
  induction layers generalizing g input with
  | nil => exact h
  | cons w rest ih => exact ih (h.addLayer w _ input)

/-- The graph of a language model. -/
theorem buildLanguage_numbered {sources : Nat} {layers : List LayerWeights}
    {garbage : Nat → Nat → Bool} (hinput : 0 < sources)
    (hlayers : ∀ w ∈ layers, ∀ t ∈ w.tensors, first ≤ t ∧ t < first + sources) :
    (buildLanguage first sources layers garbage).Numbered first ∧
      ∀ op ∈ (buildLanguage first sources layers garbage).operations,
        op.id < (buildLanguage first sources layers garbage).nextId := by
  refine ⟨?_, (buildLanguage_sound hinput hlayers).wiring.opsBelow⟩
  have hstart : (startLanguage first sources).Numbered first := by
    unfold startLanguage
    clear hinput hlayers
    induction sources with
    | zero => exact numbered_empty first
    | succ sources ih =>
      rw [List.range_succ, List.foldl_append]
      exact ih.extends (extends_newTensor _ _ _ _)
  exact hstart.addLayers

end Graph

end OnnxSim
