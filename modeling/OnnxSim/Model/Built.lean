import OnnxSim.Model.Wiring

/-!
# The graphs that are built

Every step of `initialize_model` keeps the wiring (`Graph.Built`), so a graph from an ONNX file in
single static assignment form is well wired (`Graph.build_built`), and its model is one to which the
rules for runs apply (`Graph.Built.sound`).
-/

namespace OnnxSim

namespace Graph

/-- The `MambaBlock` operations are children of their outputs. -/
def SelfRead (g : Graph) : Prop :=
  ∀ id ∈ g.mambas, ∃ o ∈ g.operations, o.id = id ∧
    ∃ T ∈ g.tensors, T.id ∈ o.outputs ∧ id ∈ T.childNodes

/-- A graph whose operations are all complete. -/
structure Built (g : Graph) (written sources : List String) : Prop where
  wiring : Wiring g g.operations g.mambas
  named : Named g g.operations written sources
  selfs : g.SelfRead

variable {g g' : Graph} {ops : List Operation} {mambas : List Nat} {written sources : List String}

/-! ## A node -/

theorem Wrote.trans {g'' : Graph} {cur : Operation} {written' : List String} {ts ts' : List Nat}
    (h : Wrote g g' ops cur mambas written sources ts)
    (h' : Wrote g' g'' ops { cur with outputs := cur.outputs ++ ts } mambas written' sources ts') :
    Wrote g g'' ops cur mambas written' sources (ts ++ ts') := by
  obtain ⟨hw, hn, hext⟩ := h'
  simp only [List.append_assoc] at hw hn
  exact ⟨hw, hn, h.ext.trans hext⟩

/-- The outputs of a node have names that are new. -/
structure NewNames (outputs : List (String × List Nat)) (written sources : List String) : Prop where
  nodup : (outputs.map (·.1)).Nodup
  written : ∀ name ∈ outputs.map (·.1), name ∉ written
  sources : ∀ name ∈ outputs.map (·.1), name ∉ sources

theorem NewNames.tail {output : String × List Nat} {rest : List (String × List Nat)}
    (h : NewNames (output :: rest) written sources) :
    NewNames rest (output.1 :: written) sources := by
  obtain ⟨hnot, hnodup⟩ := List.nodup_cons.mp h.nodup
  refine ⟨hnodup, fun name hname hmem => ?_, fun name hname =>
    h.sources name (List.mem_cons_of_mem _ hname)⟩
  rcases List.mem_cons.mp hmem with rfl | hmem
  · exact hnot hname
  · exact h.written name (List.mem_cons_of_mem _ hname) hmem

/-- What each write does, all of them do. -/
theorem writeOutputs_sound
    {write : Graph → Nat → String × List Nat → Option (List Nat × Graph)} (id : Nat)
    (hwrite : ∀ {g g' : Graph} {cur : Operation} {written : List String} {output ts},
      Wiring g (ops ++ [cur]) mambas → Named g (ops ++ [cur]) written sources → cur.id = id →
      output.1 ∉ written → output.1 ∉ sources → write g id output = some (ts, g') →
      Wrote g g' ops cur mambas (output.1 :: written) sources ts)
    {outputs : List (String × List Nat)} {cur : Operation} {ts : List Nat}
    (h : Wiring g (ops ++ [cur]) mambas) (hn : Named g (ops ++ [cur]) written sources)
    (hid : cur.id = id) (hnew : NewNames outputs written sources)
    (hw : writeOutputs write id outputs g = some (ts, g')) :
    Wrote g g' ops cur mambas (outputs.map (·.1) ++ written) sources ts := by
  induction outputs generalizing g cur written ts with
  | nil =>
    rw [writeOutputs] at hw
    obtain ⟨rfl, rfl⟩ := Prod.mk.inj (Option.some.inj hw)
    have hsame : ({ cur with outputs := cur.outputs ++ [] } : Operation) = cur := by
      rw [List.append_nil]
    exact ⟨by rwa [hsame], by rwa [hsame], .refl g⟩
  | cons output rest ih =>
    rw [writeOutputs] at hw
    obtain ⟨⟨ts₁, g₁⟩, hfirst, hw⟩ := Option.bind_eq_some_iff.mp hw
    obtain ⟨⟨ts₂, g₂⟩, hrest, hw⟩ := Option.bind_eq_some_iff.mp hw
    obtain ⟨rfl, rfl⟩ := Prod.mk.inj (Option.some.inj hw)
    have hone := hwrite h hn hid (hnew.written _ (by simp)) (hnew.sources _ (by simp)) hfirst
    have hall := hone.trans (ih hone.wiring hone.named hid hnew.tail hrest)
    refine ⟨hall.wiring, hall.named.mono fun name hname => ?_, hall.ext⟩
    simp only [List.map_cons, List.cons_append, List.mem_cons, List.mem_append] at hname ⊢
    tauto

/-- The constructor of a node's class adds one operation. -/
structure Created (g g' : Graph) (node : NodeProto) (written sources : List String) : Prop where
  built : Built g' (node.outputs.map (·.1) ++ written) sources
  operations : ∃ op, op.id = g.nextId ∧ g'.operations = g.operations ++ [op]
  mambas : g'.mambas = g.mambas ++ if node.opType = .mambaBlock then [g.nextId] else []
  attentions : ∀ id ∈ g'.attentions, id ∈ g.attentions ∨ id = g.nextId

theorem Wiring.mono {mambas' : List Nat} (h : Wiring g ops mambas) (hsub : ∀ c ∈ mambas, c ∈ mambas') :
    Wiring g ops mambas' := by
  refine ⟨h.tensorIds, h.tensorsBelow, h.opIds, h.opsBelow, h.exist, fun T hT c hc => ?_, h.producer,
    h.unfinished⟩
  obtain ⟨o, ho, hid, hread⟩ := h.children T hT c hc
  exact ⟨o, ho, hid, hread.imp_right fun hmamba => ⟨hmamba.1, hsub c hmamba.2⟩⟩

/-- The blocks that are children of their outputs still are. -/
theorem Built.selfs_extends (h : Built g written sources) (hext : Extends g g')
    {ops : List Operation} (hops : ∀ o ∈ g.operations, ∃ o' ∈ ops, o'.id = o.id ∧
      ∀ t ∈ o.outputs, t ∈ o'.outputs) :
    ∀ id ∈ g.mambas, ∃ o ∈ ops, o.id = id ∧
      ∃ T ∈ g'.tensors, T.id ∈ o.outputs ∧ id ∈ T.childNodes := by
  intro id hid
  obtain ⟨o, ho, hoid, T, hT, htout, hchild⟩ := h.selfs id hid
  obtain ⟨o', ho', hid', hout⟩ := hops o ho
  obtain ⟨T', hT', htid, hchildren⟩ := hext.children T hT
  exact ⟨o', ho', hid'.trans hoid, T', hT', htid ▸ hout _ htout, hchildren id hchild⟩

theorem Wiring.of_eq (h : Wiring g ops mambas) (htensors : g'.tensors = g.tensors)
    (hnext : g'.nextId = g.nextId) : Wiring g' ops mambas := by
  obtain ⟨hids, hbelow, hopIds, hops, hexist, hchildren, hproducer, hfinish⟩ := h
  rw [← htensors] at hids hbelow hexist hchildren
  rw [← hnext] at hbelow hops
  exact ⟨hids, hbelow, hopIds, hops, hexist, hchildren, hproducer, hfinish⟩

theorem Named.of_eq (h : Named g ops written sources) (htensors : g'.tensors = g.tensors) :
    Named g' ops written sources := by
  obtain ⟨houtputs, hproduced⟩ := h
  rw [← htensors] at houtputs hproduced
  exact ⟨houtputs, hproduced⟩

/-- Once its outputs are written an operation is complete. -/
theorem Wrote.created {u v : Graph} {node : NodeProto} {ins outs mambas' : List Nat}
    (attentions : List Nat) (h : Built g written sources) (hext : Extends g u)
    (hwrote : Wrote u v g.operations { id := g.nextId, inputs := ins } mambas'
      (node.outputs.map (·.1) ++ written) sources outs)
    (hmambas : mambas' = g.mambas ++ if node.opType = .mambaBlock then [g.nextId] else [])
    (hself : node.opType = .mambaBlock → ∃ T ∈ v.tensors, T.id ∈ outs ∧ g.nextId ∈ T.childNodes)
    (hattentions : ∀ id ∈ attentions, id ∈ g.attentions ∨ id = g.nextId) :
    Created g { v with
      operations := v.operations ++ [{ id := g.nextId, inputs := ins, outputs := outs }]
      mambas := mambas'
      attentions := attentions } node written sources := by
  obtain ⟨hw, hn, hext'⟩ := hwrote
  have hall := hext.trans hext'
  simp only [List.nil_append] at hw hn
  rw [hall.operations]
  refine ⟨⟨hw.of_eq rfl rfl, hn.of_eq rfl, ?_⟩, ⟨_, rfl, rfl⟩, hmambas, hattentions⟩
  intro id hid
  simp only [hmambas] at hid
  rcases List.mem_append.mp hid with hid | hid
  · exact h.selfs_extends hall
      (fun o ho => ⟨o, List.mem_append_left _ ho, rfl, fun t ht => ht⟩) id hid
  · split at hid
    · rename_i hmamba
      obtain rfl := List.mem_singleton.mp hid
      exact ⟨_, List.mem_append_right _ (List.mem_singleton_self _), rfl, hself hmamba⟩
    · cases hid

theorem createOperation_sound {node : NodeProto} (h : Built g written sources)
    (hnew : NewNames node.outputs written sources) (hg : g.createOperation node = some g') :
    Created g g' node written sources := by
  unfold createOperation at hg
  simp only at hg
  obtain ⟨hw, hn, hext⟩ := readInputs_sound node.inputs h.wiring.begin h.named.begin
  have hbegin : Extends g { g with nextId := g.nextId + 1 } :=
    ⟨rfl, rfl, rfl, Nat.le_succ _, fun T hT => ⟨T, hT, rfl, fun _ hc => hc⟩⟩
  generalize readInputs g.nextId node.inputs { g with nextId := g.nextId + 1 } = read
    at hg hw hn hext
  obtain ⟨ins, u⟩ := read
  simp only [List.nil_append] at hg hw hn hext
  have hu : Extends g u := hbegin.trans hext
  have hplain : ∀ {outs : List Nat} {v : Graph},
      writeOutputs writeOutput g.nextId node.outputs u = some (outs, v) →
      Wrote u v g.operations { id := g.nextId, inputs := ins } g.mambas
        (node.outputs.map (·.1) ++ written) sources outs := by
    intro outs v hv
    refine writeOutputs_sound g.nextId ?_ hw hn rfl hnew hv
    intro u v cur written output ts hw hn hid _ _ hwrite
    rw [← hid] at hwrite
    exact writeOutput_sound hw hn hwrite
  have hcreated : ∀ {outs : List Nat} {v : Graph} {attentions : List Nat},
      writeOutputs writeOutput g.nextId node.outputs u = some (outs, v) →
      node.opType ≠ .mambaBlock → (∀ id ∈ attentions, id ∈ g.attentions ∨ id = g.nextId) →
      Created g { v with
        operations := v.operations ++ [{ id := g.nextId, inputs := ins, outputs := outs }]
        attentions := attentions } node written sources := by
    intro outs v attentions hv htype hattentions
    have hwrote := hplain hv
    have hmambas : v.mambas = g.mambas := by rw [hwrote.ext.mambas, hu.mambas]
    have hdone := hwrote.created attentions h hu (by simp [htype])
      (fun hmamba => absurd hmamba htype) hattentions
    rwa [← hmambas] at hdone
  split at hg
  · rename_i htype
    split at hg
    · cases hg
    · rename_i hne
      obtain ⟨⟨outs, v⟩, hv, hg⟩ := Option.bind_eq_some_iff.mp hg
      obtain rfl := Option.some.inj hg
      have hmamba : g.nextId ∈ g.mambas ++ [g.nextId] := by simp
      have hw' : Wiring u (g.operations ++ [{ id := g.nextId, inputs := ins }])
          (g.mambas ++ [g.nextId]) := hw.mono fun c hc => List.mem_append_left _ hc
      have hwrite : ∀ {u v : Graph} {cur : Operation} {written : List String} {output ts},
          Wiring u (g.operations ++ [cur]) (g.mambas ++ [g.nextId]) →
          Named u (g.operations ++ [cur]) written sources → cur.id = g.nextId →
          output.1 ∉ written → output.1 ∉ sources →
          u.writeMambaOutput g.nextId output = some (ts, v) →
          Wrote u v g.operations cur (g.mambas ++ [g.nextId]) (output.1 :: written) sources ts ∧
            ∃ T ∈ v.tensors, T.id ∈ ts ∧ g.nextId ∈ T.childNodes := by
        intro u v cur written output ts hw hn hid hnotw hnots hwrite
        rw [← hid] at hwrite hmamba hw ⊢
        exact writeMambaOutput_sound hw hn hmamba hnotw hnots hwrite
      have hwrote := writeOutputs_sound g.nextId
        (fun hw hn hid hnotw hnots hone => (hwrite hw hn hid hnotw hnots hone).1) hw' hn rfl hnew hv
      have hmambas : (v.mambas ++ [g.nextId]) = g.mambas ++ [g.nextId] := by
        rw [hwrote.ext.mambas, hu.mambas]
      rw [hmambas]
      refine hwrote.created _ h hu (by simp [htype]) (fun _ => ?_) ?_
      · -- the first output has the block as a child, and keeps it
        obtain ⟨output, rest, houtputs⟩ := List.exists_cons_of_ne_nil hne
        rw [houtputs, writeOutputs] at hv
        obtain ⟨⟨ts₁, g₁⟩, hfirst, hv⟩ := Option.bind_eq_some_iff.mp hv
        obtain ⟨⟨ts₂, g₂⟩, hrest, hv⟩ := Option.bind_eq_some_iff.mp hv
        obtain ⟨rfl, rfl⟩ := Prod.mk.inj (Option.some.inj hv)
        rw [houtputs] at hnew
        obtain ⟨hone, T, hT, htid, hchild⟩ := hwrite hw' hn rfl (hnew.written _ (by simp))
          (hnew.sources _ (by simp)) hfirst
        have hext := (writeOutputs_sound g.nextId
          (fun hw hn hid hnotw hnots hone => (hwrite hw hn hid hnotw hnots hone).1)
          hone.wiring hone.named rfl hnew.tail hrest).ext
        obtain ⟨T', hT', htid', hchildren⟩ := hext.children T hT
        exact ⟨T', hT', List.mem_append_left _ (htid'.symm ▸ htid), hchildren _ hchild⟩
      · intro id hid
        rw [hwrote.ext.attentions, hu.attentions] at hid
        exact .inl hid
  · rename_i htype
    obtain ⟨⟨outs, v⟩, hv, hg⟩ := Option.bind_eq_some_iff.mp hg
    obtain rfl := Option.some.inj hg
    rw [(hplain hv).ext.attentions, hu.attentions]
    exact hcreated hv (by simp [htype]) fun id hid => by simpa using hid
  · rename_i htype
    obtain ⟨⟨outs, v⟩, hv, hg⟩ := Option.bind_eq_some_iff.mp hg
    obtain rfl := Option.some.inj hg
    refine hcreated hv (by simp [htype]) fun id hid => ?_
    rw [(hplain hv).ext.attentions, hu.attentions] at hid
    exact .inl hid
  · rename_i htype
    obtain ⟨⟨outs, v⟩, hv, hg⟩ := Option.bind_eq_some_iff.mp hg
    obtain rfl := Option.some.inj hg
    refine hcreated hv (by simp [htype]) fun id hid => ?_
    rw [(hplain hv).ext.attentions, hu.attentions] at hid
    exact .inl hid

/-! ## All nodes -/

/-- Operations get more inputs, and operations that are no blocks lose outputs. -/
theorem Wiring.map {f : Operation → Operation} (h : Wiring g ops mambas)
    (hid : ∀ o, (f o).id = o.id) (hfinish : ∀ o, (f o).finish = o.finish)
    (hin : ∀ o, ∀ t ∈ o.inputs, t ∈ (f o).inputs) (hout : ∀ o, ∀ t ∈ (f o).outputs, t ∈ o.outputs)
    (hmamba : ∀ o, o.id ∈ mambas → ∀ t ∈ o.outputs, t ∈ (f o).outputs)
    (hexist : ∀ o ∈ ops, ∀ t ∈ (f o).inputs, ∃ T ∈ g.tensors, T.id = t) :
    Wiring g (ops.map f) mambas := by
  have hids : (ops.map f).map (·.id) = ops.map (·.id) := by
    rw [List.map_map]
    exact List.map_congr_left fun o _ => hid o
  refine ⟨h.tensorIds, h.tensorsBelow, hids ▸ h.opIds, fun o ho => ?_, fun o ho t ht => ?_,
    fun T hT c hc => ?_, fun x hx y hy t htx hty => ?_, fun o ho => ?_⟩
  · obtain ⟨o, ho', rfl⟩ := List.mem_map.mp ho
    rw [hid]
    exact h.opsBelow o ho'
  · obtain ⟨o, ho', rfl⟩ := List.mem_map.mp ho
    rcases List.mem_append.mp ht with ht | ht
    · exact hexist o ho' t ht
    · exact h.exist o ho' t (List.mem_append_right _ (hout o t ht))
  · obtain ⟨o, ho, hoid, hread⟩ := h.children T hT c hc
    exact ⟨f o, List.mem_map_of_mem ho, (hid o).trans hoid, hread.imp (hin o _) fun hself =>
      ⟨hmamba o (hoid ▸ hself.2) _ hself.1, hself.2⟩⟩
  · obtain ⟨x, hx', rfl⟩ := List.mem_map.mp hx
    obtain ⟨y, hy', rfl⟩ := List.mem_map.mp hy
    rw [hid, hid]
    exact h.producer x hx' y hy' t (hout x t htx) (hout y t hty)
  · obtain ⟨o, ho', rfl⟩ := List.mem_map.mp ho
    rw [hfinish]
    exact h.unfinished o ho'

theorem Named.map {f : Operation → Operation} (h : Named g ops written sources)
    (hout : ∀ o, ∀ t ∈ (f o).outputs, t ∈ o.outputs) : Named g (ops.map f) written sources := by
  refine ⟨fun o ho t ht => ?_, h.produced⟩
  obtain ⟨o, ho', rfl⟩ := List.mem_map.mp ho
  exact h.outputs o ho' t (hout o t ht)

theorem Built.clearOutputs {id : Nat} (h : Built g written sources) (hid : id ∉ g.mambas) :
    Built (g.clearOutputs id) written sources := by
  have hid' : ∀ o : Operation, o.id ∈ g.mambas → o.id ≠ id := fun o ho heq => hid (heq ▸ ho)
  have hout : ∀ o : Operation, ∀ t ∈ (if o.id = id then { o with outputs := [] } else o).outputs,
      t ∈ o.outputs := by
    intro o t ht
    split at ht
    · cases ht
    · exact ht
  have hkeep : ∀ o : Operation, o.id ∈ g.mambas → ∀ t ∈ o.outputs,
      t ∈ (if o.id = id then { o with outputs := [] } else o).outputs := by
    intro o ho t ht
    rwa [if_neg (hid' o ho)]
  have hins : ∀ o : Operation,
      (if o.id = id then { o with outputs := [] } else o).inputs = o.inputs := by
    intro o
    split <;> rfl
  refine ⟨?_, (h.named.map hout).of_eq rfl, fun c hc => ?_⟩
  · have hmapped : Wiring g (g.operations.map fun o =>
        if o.id = id then { o with outputs := [] } else o) g.mambas := by
      refine h.wiring.map (fun o => ?_) (fun o => ?_) (fun o t ht => ?_) hout hkeep fun o ho t ht => ?_
      · split <;> rfl
      · split <;> rfl
      · rwa [hins]
      · rw [hins] at ht
        exact h.wiring.exist o ho t (List.mem_append_left _ ht)
    exact hmapped.of_eq rfl rfl
  · obtain ⟨o, ho, hoid, T, hT, htout, hchild⟩ := h.selfs c hc
    refine ⟨_, List.mem_map_of_mem ho, ?_, T, hT, hkeep o (hoid ▸ hc) _ htout, hchild⟩
    split <;> exact hoid

/-- The names that the nodes write are new. -/
structure NewNodes (nodes : List NodeProto) (written sources : List String) : Prop where
  nodup : ((nodes.flatMap (·.outputs)).map (·.1)).Nodup
  written : ∀ name ∈ (nodes.flatMap (·.outputs)).map (·.1), name ∉ written
  sources : ∀ name ∈ (nodes.flatMap (·.outputs)).map (·.1), name ∉ sources

theorem NewNodes.head {node : NodeProto} {rest : List NodeProto}
    (h : NewNodes (node :: rest) written sources) : NewNames node.outputs written sources := by
  obtain ⟨hnodup, hwritten, hsources⟩ := h
  rw [List.flatMap_cons, List.map_append] at hnodup hwritten hsources
  exact ⟨(List.nodup_append.mp hnodup).1, fun name hname => hwritten name (List.mem_append_left _ hname),
    fun name hname => hsources name (List.mem_append_left _ hname)⟩

theorem NewNodes.tail {node : NodeProto} {rest : List NodeProto}
    (h : NewNodes (node :: rest) written sources) :
    NewNodes rest (node.outputs.map (·.1) ++ written) sources := by
  obtain ⟨hnodup, hwritten, hsources⟩ := h
  rw [List.flatMap_cons, List.map_append] at hnodup hwritten hsources
  obtain ⟨-, hrest, hapart⟩ := List.nodup_append.mp hnodup
  refine ⟨hrest, fun name hname hmem => ?_, fun name hname =>
    hsources name (List.mem_append_right _ hname)⟩
  rcases List.mem_append.mp hmem with hmem | hmem
  · exact hapart name hmem name hname rfl
  · exact hwritten name (List.mem_append_right _ hname) hmem

theorem createOperations_sound {nrAtten : Option Int} {nodes : List NodeProto} {nrSkip : Nat}
    (h : Built g written sources) (hnew : NewNodes nodes written sources)
    (hg : createOperations nrAtten nodes nrSkip g = some g') :
    ∃ written', Built g' written' sources := by
  induction nodes generalizing g written nrSkip with
  | nil =>
    rw [createOperations] at hg
    obtain rfl := Option.some.inj hg
    exact ⟨written, h⟩
  | cons node rest ih =>
    rw [createOperations] at hg
    obtain ⟨u, hu, hg⟩ := Option.bind_eq_some_iff.mp hg
    have hcreated := createOperation_sound h hnew.head hu
    split at hg
    · rename_i htype _
      split at hg
      · exact ih hcreated.built hnew.tail hg
      · split at hg
        · obtain rfl := Option.some.inj hg
          refine ⟨_, hcreated.built.clearOutputs fun hmem => ?_⟩
          -- the identifiers of the blocks are those of earlier operations
          rw [hcreated.mambas, htype] at hmem
          simp only [reduceCtorEq, if_false, List.append_nil] at hmem
          obtain ⟨o, ho, hid, -⟩ := h.selfs _ hmem
          exact absurd (h.wiring.opsBelow o ho) (by omega)
        · exact ih hcreated.built hnew.tail hg
    · exact ih hcreated.built hnew.tail hg

/-! ## Attention -/

theorem addChildNodes_sound (op : Nat) (ts : List Nat) {o : Operation} (h : Wiring g ops mambas)
    (ho : o ∈ ops) (hid : o.id = op) (hts : ∀ t ∈ ts, t ∈ o.inputs) :
    Wiring (addChildNodes op ts g) ops mambas ∧ Extends g (addChildNodes op ts g) := by
  induction ts generalizing g with
  | nil => exact ⟨h, .refl g⟩
  | cons t ts ih =>
    obtain ⟨ht, hts⟩ := List.forall_mem_cons.mp hts
    obtain ⟨hw, hext⟩ := ih (h.addChildNode ho hid (.inl ht)) hts
    exact ⟨hw, (extends_addChildNode t op).trans hext⟩

theorem Named.addChildNodes (h : Named g ops written sources) (op : Nat) (ts : List Nat) :
    Named (addChildNodes op ts g) ops written sources := by
  induction ts generalizing g with
  | nil => exact h
  | cons t ts ih => exact ih (h.addChildNode t op)

/-- The new tensors of a projection, which no operation writes. -/
theorem newProjections_sound (op : Nat) (dims : List Nat) (h : Wiring g ops mambas)
    (hn : Named g ops written sources) :
    Wiring (newProjections g op dims).2 ops mambas ∧
    Named (newProjections g op dims).2 ops written sources ∧
    Extends g (newProjections g op dims).2 ∧
    (∀ t ∈ (newProjections g op dims).1, g.nextId ≤ t ∧
      ∃ T ∈ (newProjections g op dims).2.tensors, T.id = t ∧ T.produced = false ∧ T.name = "") := by
  have hfalse : ∀ {name : String}, false = true → name ∈ sources :=
    fun hproduced => (Bool.false_ne_true hproduced).elim
  refine ⟨((h.newTensor _ _ _ _).newTensor _ _ _ _).newTensor _ _ _ _,
    ((hn.newTensor hfalse).newTensor hfalse).newTensor hfalse,
    ((extends_newTensor _ _ _ _).trans (extends_newTensor _ _ _ _)).trans
      (extends_newTensor _ _ _ _), fun t ht => ?_⟩
  simp only [newProjections, newTensor, List.mem_cons, List.not_mem_nil, or_false] at ht ⊢
  rcases ht with rfl | rfl | rfl
  · exact ⟨by omega, _, List.mem_append_left _ (List.mem_append_left _
      (List.mem_append_right _ (List.mem_singleton_self _))), rfl, rfl, rfl⟩
  · exact ⟨by omega, _, List.mem_append_left _
      (List.mem_append_right _ (List.mem_singleton_self _)), rfl, rfl, rfl⟩
  · exact ⟨by omega, _, List.mem_append_right _ (List.mem_singleton_self _), rfl, rfl, rfl⟩

@[simp] theorem readProjections_id (op : Nat) (ts : List Nat) (o : Operation) :
    (readProjections op ts o).id = o.id := by
  unfold readProjections
  split <;> rfl

@[simp] theorem readProjections_outputs (op : Nat) (ts : List Nat) (o : Operation) :
    (readProjections op ts o).outputs = o.outputs := by
  unfold readProjections
  split <;> rfl

theorem mem_readProjections {op t : Nat} {ts : List Nat} {o : Operation} :
    t ∈ (readProjections op ts o).inputs ↔ t ∈ o.inputs ∨ o.id = op ∧ t ∈ ts := by
  unfold readProjections
  split <;> simp_all

section project

variable {u : Graph} {outs : List Nat}
  (hw : Wiring u (ops ++ [{ id := g.nextId }]) mambas)
  (hnew : ∀ t ∈ outs, g.nextId < t ∧
    ∃ T ∈ u.tensors, T.id = t ∧ T.produced = false ∧ T.name = "")

include hw hnew

/-- The projection is complete, and operation `op` reads it. -/
theorem Wiring.project {op : Nat} {ins : List Nat} (hold : Wiring g ops mambas) (hop : op < g.nextId)
    (hins : ∀ t ∈ ins, ∃ T ∈ u.tensors, T.id = t) :
    Wiring u (ops.map (readProjections op outs) ++
      [{ id := g.nextId, inputs := ins, outputs := outs }]) mambas := by
  have hproj : Wiring u (ops ++ [{ id := g.nextId, inputs := ins, outputs := outs }]) mambas := by
    refine hw.extend rfl (fun t ht => (nomatch ht)) (fun t ht => (nomatch ht)) rfl
      (fun t ht => ?_) fun t ht => .inr fun x hx htx => ?_
    · rcases List.mem_append.mp ht with ht | ht
      · exact hins t ht
      · obtain ⟨-, T, hT, hid, -⟩ := hnew t ht
        exact ⟨T, hT, hid⟩
    · obtain ⟨T, hT, hid⟩ := hold.exist x hx t (List.mem_append_right _ htx)
      have hbelow := hold.tensorsBelow T hT
      have hge := (hnew t ht).1
      omega
  have hmap := hproj.map (f := readProjections op outs) (readProjections_id op outs) (fun o => ?_)
    (fun o t ht => mem_readProjections.mpr (.inl ht)) (fun o t ht => by simpa using ht)
    (fun o _ t ht => by simpa using ht) fun o ho t ht => ?_
  · have hself : readProjections op outs { id := g.nextId, inputs := ins, outputs := outs } =
        { id := g.nextId, inputs := ins, outputs := outs } := if_neg (by simp only; omega)
    rwa [List.map_append, List.map_singleton, hself] at hmap
  · unfold readProjections
    split <;> rfl
  · rcases mem_readProjections.mp ht with ht | ⟨-, ht⟩
    · exact hproj.exist o ho t (List.mem_append_left _ ht)
    · obtain ⟨-, T, hT, hid, -⟩ := hnew t ht
      exact ⟨T, hT, hid⟩

omit hw in
theorem Named.project (op : Nat) (ins : List Nat) (hn : Named u (ops ++ [{ id := g.nextId }]) written sources) :
    Named u (ops.map (readProjections op outs) ++
      [{ id := g.nextId, inputs := ins, outputs := outs }]) ("" :: written) sources := by
  refine ⟨fun o ho t ht => ?_, hn.produced⟩
  rcases List.mem_append.mp ho with ho | ho
  · obtain ⟨o', ho', rfl⟩ := List.mem_map.mp ho
    rw [readProjections_outputs] at ht
    obtain ⟨T, hT, hid, hproduced, hname⟩ := hn.outputs o' (List.mem_append_left _ ho') t ht
    exact ⟨T, hT, hid, hproduced, List.mem_cons_of_mem _ hname⟩
  · obtain rfl := List.mem_singleton.mp ho
    obtain ⟨-, T, hT, hid, hproduced, hname⟩ := hnew t ht
    exact ⟨T, hT, hid, hproduced, hname ▸ List.mem_cons_self⟩

end project

theorem projectAttention_sound {op : Nat} {dims : List Nat} (h : Built g written sources)
    (hg : g.projectAttention dims op = some g') : Built g' ("" :: written) sources := by
  obtain ⟨attention, hfind, hg⟩ := Option.bind_eq_some_iff.mp hg
  obtain ⟨in0, h0, hg⟩ := Option.bind_eq_some_iff.mp hg
  obtain ⟨in1, h1, hg⟩ := Option.bind_eq_some_iff.mp hg
  obtain ⟨in2, h2, hg⟩ := Option.bind_eq_some_iff.mp hg
  have hmem : attention ∈ g.operations := List.mem_of_find?_eq_some hfind
  have hop : attention.id = op := by simpa using List.find?_some hfind
  have hins : ∀ t ∈ [in0, in1, in2], t ∈ attention.inputs := by
    intro t ht
    simp only [List.mem_cons, List.not_mem_nil, or_false] at ht
    rcases ht with rfl | rfl | rfl
    · exact List.mem_of_getElem? h0
    · exact List.mem_of_getElem? h1
    · exact List.mem_of_getElem? h2
  simp only at hg
  obtain ⟨hw, hn, hext, hnew⟩ := newProjections_sound op dims h.wiring.begin h.named.begin
  generalize newProjections { g with nextId := g.nextId + 1 } op dims = projections
    at hg hw hn hext hnew
  obtain ⟨outs, u⟩ := projections
  simp only at hg hw hn hext hnew
  have hbegin : Extends g { g with nextId := g.nextId + 1 } :=
    ⟨rfl, rfl, rfl, Nat.le_succ _, fun T hT => ⟨T, hT, rfl, fun _ hc => hc⟩⟩
  have hu := hbegin.trans hext
  have hexist : ∀ t ∈ [in0, in1, in2], ∃ T ∈ u.tensors, T.id = t := by
    intro t ht
    obtain ⟨T, hT, hid⟩ := h.wiring.exist attention hmem t (List.mem_append_left _ (hins t ht))
    obtain ⟨T', hT', hid', -⟩ := hu.children T hT
    exact ⟨T', hT', hid'.trans hid⟩
  have hproj := hw.project hnew h.wiring (hop ▸ h.wiring.opsBelow attention hmem) hexist
  have hnproj := Named.project hnew op [in0, in1, in2] hn
  -- the children are entered
  obtain ⟨hw₁, hext₁⟩ := addChildNodes_sound g.nextId [in0, in1, in2, in0] hproj
    (List.mem_append_right _ (List.mem_singleton_self _)) rfl (by simp)
  obtain ⟨hw₂, hext₂⟩ := addChildNodes_sound op outs hw₁
    (List.mem_append_left _ (List.mem_map_of_mem hmem)) ((readProjections_id _ _ _).trans hop)
    fun t ht => mem_readProjections.mpr (.inr ⟨hop, ht⟩)
  have hall := hu.trans (hext₁.trans hext₂)
  have hselfs := h.selfs_extends hall fun o ho =>
    ⟨_, List.mem_append_left [{ id := g.nextId, inputs := [in0, in1, in2], outputs := outs }]
      (List.mem_map_of_mem (f := readProjections op outs) ho), by simp, fun t ht => by simpa using ht⟩
  have hnamed := (hnproj.addChildNodes g.nextId [in0, in1, in2, in0]).addChildNodes op outs
  obtain rfl := Option.some.inj hg
  refine ⟨?_, ?_, ?_⟩
  · simp only [hall.operations, hall.mambas]
    exact hw₂.of_eq rfl rfl
  · simp only [hall.operations]
    exact hnamed.of_eq rfl
  · simp only [hall.operations, hall.mambas]
    exact hselfs

/-! ## The whole graph -/

theorem foldl_newTensor_sound (sourcesOf : List (String × List Nat)) (h : Wiring g ops mambas)
    (hn : Named g ops written sources) (hall : ∀ source ∈ sourcesOf, source.1 ∈ sources) :
    let g' := sourcesOf.foldl (fun g source => (g.newTensor source.1 source.2 0 true).2) g
    Wiring g' ops mambas ∧ Named g' ops written sources ∧ Extends g g' := by
  induction sourcesOf generalizing g with
  | nil => exact ⟨h, hn, .refl g⟩
  | cons source rest ih =>
    obtain ⟨hsource, hrest⟩ := List.forall_mem_cons.mp hall
    obtain ⟨hw, hnamed, hext⟩ := ih (h.newTensor source.1 source.2 0 true)
      (hn.newTensor fun _ => hsource) hrest
    exact ⟨hw, hnamed, (extends_newTensor _ _ _ _).trans hext⟩

theorem wiring_empty (first : Nat) : Wiring { nextId := first } [] [] :=
  ⟨List.nodup_nil, fun _ hT => (nomatch hT), List.nodup_nil, fun _ ho => (nomatch ho),
    fun _ ho => (nomatch ho), fun _ hT => (nomatch hT), fun _ hx => (nomatch hx),
    fun _ ho => (nomatch ho)⟩

/-- The names of the inputs and the initializers. -/
def sourceNames (p : GraphProto) : List String :=
  (p.initializers ++ p.inputs).map (·.1)

theorem start_built (first : Nat) (p : GraphProto) :
    Built (start first p) [] (sourceNames p) := by
  have hempty : Named { nextId := first } [] [] (sourceNames p) :=
    ⟨fun _ ho => (nomatch ho), fun _ hT => (nomatch hT)⟩
  obtain ⟨hw, hn, hext⟩ := foldl_newTensor_sound (p.initializers ++ p.inputs) (wiring_empty first)
    hempty fun source hsource => List.mem_map_of_mem hsource
  have hoperations : (start first p).operations = [] := hext.operations
  have hmambas : (start first p).mambas = [] := hext.mambas
  refine ⟨?_, ?_, ?_⟩
  · rw [hoperations, hmambas]
    exact hw
  · rw [hoperations]
    exact hn
  · unfold SelfRead
    rw [hmambas]
    exact fun id hid => (nomatch hid)

/-- A graph that is built is wired, with the names of its file. -/
theorem build_built {first : Nat} {p : GraphProto} {nrAtten : Option Int} {dims : List Nat}
    (hg : build first p nrAtten dims = some g) : ∃ written, Built g written (sourceNames p) := by
  obtain ⟨u, hu, hg⟩ := Option.bind_eq_some_iff.mp hg
  have hnew : NewNodes p.nodes [] (sourceNames p) := by
    refine ⟨p.ssa, fun name _ hmem => (nomatch hmem), fun name hname hmem => ?_⟩
    obtain ⟨hin, hinit⟩ := p.sources name hname
    unfold sourceNames at hmem
    rw [List.map_append] at hmem
    rcases List.mem_append.mp hmem with hmem | hmem
    · exact hinit hmem
    · exact hin hmem
  obtain ⟨written, hbuilt⟩ := createOperations_sound (start_built first p) hnew hu
  clear hu
  generalize u.attentions = attentions at hg
  induction attentions generalizing u written with
  | nil =>
    obtain rfl := Option.some.inj hg
    exact ⟨written, hbuilt⟩
  | cons op attentions ih =>
    rw [List.foldlM_cons] at hg
    obtain ⟨v, hv, hg⟩ := Option.bind_eq_some_iff.mp hg
    exact ih v _ (projectAttention_sound hbuilt hv) hg


/-! ## The model -/

/-- The tensors that have been produced at first. -/
def producedAtFirst (g : Graph) (tiles : Nat → List Tile) (t : Nat) : Bool :=
  ((g.toModel tiles).tensorMap t).produced

theorem Wiring.tensorMap (h : Wiring g ops mambas) (tiles : Nat → List Tile) {T : GraphTensor}
    (hT : T ∈ g.tensors) : (g.toModel tiles).tensorMap T.id =
      { produced := T.produced, childNodes := T.childNodes } := by
  have hfind : g.tensors.find? (·.id == T.id) = some T := by
    obtain ⟨U, hU⟩ : ∃ U, g.tensors.find? (·.id == T.id) = some U := by
      rw [← Option.isSome_iff_exists, List.find?_isSome]
      exact ⟨T, hT, by simp⟩
    have hid : U.id = T.id := by simpa using List.find?_some hU
    rw [hU, List.inj_on_of_nodup_map h.tensorIds (List.mem_of_find?_eq_some hU) hT hid]
  simp only [toModel, hfind]

theorem tensorMap_children (tiles : Nat → List Tile) {t c : Nat}
    (hc : c ∈ ((g.toModel tiles).tensorMap t).childNodes) :
    ∃ T ∈ g.tensors, T.id = t ∧ c ∈ T.childNodes := by
  simp only [toModel] at hc
  split at hc
  · rename_i T hT
    exact ⟨T, List.mem_of_find?_eq_some hT, by simpa using List.find?_some hT, hc⟩
  · cases hc

theorem mem_toModel {tiles : Nat → List Tile} {x : Operation} :
    x ∈ (g.toModel tiles).operationMap ↔
      ∃ o ∈ g.operations, x = { o with tiles := tiles o.id } := by
  simp only [toModel, List.mem_map, eq_comm]

/-- A graph in which an operation that reads outputs of another reads one that is not produced at
first. -/
def Unmarked (g : Graph) : Prop :=
  ∀ x ∈ g.operations, ∀ y ∈ g.operations, ∀ t ∈ x.inputs, t ∈ y.outputs →
    ∃ u ∈ x.inputs, u ∈ y.outputs ∧ ∃ T ∈ g.tensors, T.id = u ∧ T.produced = false

theorem Named.unmarked (h : Named g g.operations written sources) : g.Unmarked := by
  intro x _ y hy t htx hty
  obtain ⟨T, hT, hid, hproduced, -⟩ := h.outputs y hy t hty
  exact ⟨t, htx, hty, T, hT, hid, hproduced⟩

/-- The model of a wired graph is well wired, and nothing has been taken. -/
theorem Wiring.sound (h : Wiring g g.operations mambas) (hunmarked : g.Unmarked)
    (tiles : Nat → List Tile) :
    (g.toModel tiles).Sound (g.producedAtFirst tiles) [] [] ∧ (g.toModel tiles).Once [] := by
  have hids : (g.toModel tiles).operationMap.map (·.id) = g.operations.map (·.id) := by
    simp only [toModel, List.map_map]
    exact List.map_congr_left fun _ _ => rfl
  have hnodup : ((g.toModel tiles).operationMap.map (·.id)).Nodup := hids ▸ h.opIds
  refine ⟨⟨⟨hnodup, ?_, ?_, ?_⟩, fun t => ?_, fun x hx => ?_, fun id hid => ?_, ?_⟩, ?_⟩
  · intro x hx t ht c hc hne
    obtain ⟨o, ho, rfl⟩ := mem_toModel.mp hx
    obtain ⟨T, hT, rfl, hchild⟩ := tensorMap_children tiles hc
    obtain ⟨o', ho', rfl, hread⟩ := h.children T hT c hchild
    refine ⟨_, mem_toModel.mpr ⟨o', ho', rfl⟩, rfl, hread.resolve_right fun hself => hne ?_⟩
    exact h.producer o' ho' o ho T.id hself.1 ht
  · intro x hx y hy t htx hty
    obtain ⟨o, ho, rfl⟩ := mem_toModel.mp hx
    obtain ⟨o', ho', rfl⟩ := mem_toModel.mp hy
    exact h.producer o ho o' ho' t htx hty
  · intro x hx y hy t htx hty
    obtain ⟨o, ho, rfl⟩ := mem_toModel.mp hx
    obtain ⟨o', ho', rfl⟩ := mem_toModel.mp hy
    obtain ⟨u, hux, huy, T, hT, rfl, hproduced⟩ := hunmarked o ho o' ho' t htx hty
    refine ⟨T.id, hux, huy, ?_⟩
    unfold producedAtFirst
    rw [h.tensorMap tiles hT]
    exact hproduced
  · simp [producedAtFirst]
  · obtain ⟨o, ho, rfl⟩ := mem_toModel.mp hx
    simp [h.unfinished o ho]
  · obtain ⟨x, hx, rfl⟩ := List.mem_map.mp hid
    obtain ⟨hmem, hexec⟩ := List.mem_filter.mp hx
    exact ⟨x, hmem, rfl, hexec⟩
  · exact fun id hid => (nomatch hid)
  · exact hnodup.sublist (List.filter_sublist.map _)

theorem SelfRead.selfChild (h : g.SelfRead) (hw : Wiring g ops mambas) (tiles : Nat → List Tile)
    {id : Nat} (hid : id ∈ g.mambas) : (g.toModel tiles).SelfChild id := by
  obtain ⟨o, ho, rfl, T, hT, ht, hc⟩ := h id hid
  refine ⟨_, mem_toModel.mpr ⟨o, ho, rfl⟩, rfl, List.mem_flatMap.mpr ⟨T.id, ht, ?_⟩⟩
  rw [hw.tensorMap tiles hT]
  exact hc

/-- Any other child of its own outputs reads one of them. -/
theorem Wiring.selfChild_cases (h : Wiring g g.operations mambas) {tiles : Nat → List Tile} {id : Nat}
    (hself : (g.toModel tiles).SelfChild id) : id ∈ mambas ∨
      ∃ x ∈ (g.toModel tiles).operationMap, x.id = id ∧ ∃ t ∈ x.inputs, t ∈ x.outputs := by
  obtain ⟨x, hx, rfl, hchild⟩ := hself
  obtain ⟨t, ht, hc⟩ := List.mem_flatMap.mp hchild
  obtain ⟨T, hT, rfl, hc'⟩ := tensorMap_children tiles hc
  obtain ⟨o, ho, hid, hread⟩ := h.children T hT x.id hc'
  rcases hread with hread | ⟨-, hmamba⟩
  · have hox : x = { o with tiles := tiles o.id } := by
      obtain ⟨o', ho', rfl⟩ := mem_toModel.mp hx
      rw [List.inj_on_of_nodup_map h.opIds ho' ho hid.symm]
    refine .inr ⟨x, hx, rfl, T.id, ?_, ht⟩
    rw [hox]
    exact hread
  · exact .inl hmamba

end Graph

end OnnxSim
