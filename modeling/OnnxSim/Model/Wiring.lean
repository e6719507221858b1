import OnnxSim.Model.Build
import OnnxSim.Model.Run

/-!
# How the constructors wire a graph

A tensor is in the child list of the operations that read it, and of the `MambaBlock` that writes it
(`Graph.Wiring`); every tensor has at most one producer, and the outputs are not produced at first.
So the models that are built are well wired, and a `MambaBlock` is the only operation that is a child
of its own outputs.
-/

namespace OnnxSim

namespace Graph

/-- The wiring of the operations `ops`, the last of which may still be under construction. -/
structure Wiring (g : Graph) (ops : List Operation) (mambas : List Nat) : Prop where
  tensorIds : (g.tensors.map (·.id)).Nodup
  tensorsBelow : ∀ T ∈ g.tensors, T.id < g.nextId
  opIds : (ops.map (·.id)).Nodup
  opsBelow : ∀ op ∈ ops, op.id < g.nextId
  exist : ∀ op ∈ ops, ∀ t ∈ op.inputs ++ op.outputs, ∃ T ∈ g.tensors, T.id = t
  children : ∀ T ∈ g.tensors, ∀ c ∈ T.childNodes, ∃ op ∈ ops, op.id = c ∧
    (T.id ∈ op.inputs ∨ T.id ∈ op.outputs ∧ c ∈ mambas)
  producer : ∀ x ∈ ops, ∀ y ∈ ops, ∀ t ∈ x.outputs, t ∈ y.outputs → x.id = y.id
  unfinished : ∀ op ∈ ops, op.finish = false

/-- The outputs have the names that have been written, and only sources are produced. -/
structure Named (g : Graph) (ops : List Operation) (written sources : List String) : Prop where
  outputs : ∀ op ∈ ops, ∀ t ∈ op.outputs,
    ∃ T ∈ g.tensors, T.id = t ∧ T.produced = false ∧ T.name ∈ written
  produced : ∀ T ∈ g.tensors, T.produced = true → T.name ∈ sources

variable {g : Graph} {ops : List Operation} {mambas : List Nat} {written sources : List String}

/-! ## Tensors -/

theorem Wiring.newTensor (h : Wiring g ops mambas) (name : String) (dims : List Nat) (src : Nat)
    (produced : Bool) : Wiring (g.newTensor name dims src produced).2 ops mambas := by
  refine ⟨?_, fun T hT => ?_, h.opIds, fun op hop => Nat.lt_succ_of_lt (h.opsBelow op hop),
    fun op hop t ht => ?_, fun T hT c hc => ?_, h.producer, h.unfinished⟩
  · simp only [Graph.newTensor, List.map_append, List.map_cons, List.map_nil]
    refine List.nodup_append.mpr ⟨h.tensorIds, by simp, ?_⟩
    rintro t ht _ hnew rfl
    obtain ⟨T, hT, rfl⟩ := List.mem_map.mp ht
    have hlt := h.tensorsBelow T hT
    have hid := List.mem_singleton.mp hnew
    omega
  · rcases List.mem_append.mp hT with hT | hT
    · exact Nat.lt_succ_of_lt (h.tensorsBelow T hT)
    · obtain rfl := List.mem_singleton.mp hT
      exact Nat.lt_succ_self _
  · obtain ⟨T, hT, hid⟩ := h.exist op hop t ht
    exact ⟨T, List.mem_append_left _ hT, hid⟩
  · rcases List.mem_append.mp hT with hT | hT
    · exact h.children T hT c hc
    · obtain rfl := List.mem_singleton.mp hT
      cases hc

theorem Named.newTensor (h : Named g ops written sources) {name : String} {dims : List Nat}
    {src : Nat} {produced : Bool} (hsource : produced = true → name ∈ sources) :
    Named (g.newTensor name dims src produced).2 ops written sources := by
  refine ⟨fun op hop t ht => ?_, fun T hT hproduced => ?_⟩
  · obtain ⟨T, hT, hT'⟩ := h.outputs op hop t ht
    exact ⟨T, List.mem_append_left _ hT, hT'⟩
  · rcases List.mem_append.mp hT with hT | hT
    · exact h.produced T hT hproduced
    · obtain rfl := List.mem_singleton.mp hT
      exact hsource hproduced

/-- The tensors change in their children only. -/
theorem mem_addChildNode {t op : Nat} {T : GraphTensor} :
    T ∈ (g.addChildNode t op).tensors ↔ ∃ U ∈ g.tensors,
      T = if U.id = t then { U with childNodes := U.childNodes ++ [op] } else U := by
  simp only [addChildNode, List.mem_map, eq_comm]

theorem addChildNode_ids (t op : Nat) :
    (g.addChildNode t op).tensors.map (·.id) = g.tensors.map (·.id) := by
  simp only [addChildNode, List.map_map]
  refine List.map_congr_left fun T _ => ?_
  simp only [Function.comp_apply]
  split <;> rfl

theorem exists_of_ids {g g' : Graph} (h : g'.tensors.map (·.id) = g.tensors.map (·.id)) {t : Nat}
    (ht : ∃ T ∈ g.tensors, T.id = t) : ∃ T ∈ g'.tensors, T.id = t := by
  have hmem : t ∈ g.tensors.map (·.id) := List.mem_map.mpr ht
  rw [← h] at hmem
  exact List.mem_map.mp hmem

theorem Wiring.addChildNode (h : Wiring g ops mambas) {t op : Nat} {o : Operation} (ho : o ∈ ops)
    (hid : o.id = op) (ht : t ∈ o.inputs ∨ t ∈ o.outputs ∧ op ∈ mambas) :
    Wiring (g.addChildNode t op) ops mambas := by
  have hids := addChildNode_ids (g := g) t op
  refine ⟨hids ▸ h.tensorIds, fun T hT => ?_, h.opIds, h.opsBelow,
    fun o ho t ht => exists_of_ids hids (h.exist o ho t ht), fun T hT c hc => ?_, h.producer,
    h.unfinished⟩
  · obtain ⟨U, hU, rfl⟩ := mem_addChildNode.mp hT
    have hlt := h.tensorsBelow U hU
    split <;> exact hlt
  · obtain ⟨U, hU, rfl⟩ := mem_addChildNode.mp hT
    split at hc
    · rename_i hUt
      rw [if_pos hUt]
      rcases List.mem_append.mp hc with hc | hc
      · exact h.children U hU c hc
      · obtain rfl := List.mem_singleton.mp hc
        exact ⟨o, ho, hid, by simpa only [hUt] using ht⟩
    · rename_i hUt
      rw [if_neg hUt]
      exact h.children U hU c hc

theorem Named.addChildNode (h : Named g ops written sources) (t op : Nat) :
    Named (g.addChildNode t op) ops written sources := by
  refine ⟨fun o ho u hu => ?_, fun T hT hproduced => ?_⟩
  · obtain ⟨T, hT, hid, hproduced, hname⟩ := h.outputs o ho u hu
    refine ⟨_, mem_addChildNode.mpr ⟨T, hT, rfl⟩, ?_⟩
    split <;> exact ⟨hid, hproduced, hname⟩
  · obtain ⟨U, hU, rfl⟩ := mem_addChildNode.mp hT
    split at hproduced
    · rename_i hUt
      rw [if_pos hUt]
      exact h.produced U hU hproduced
    · rename_i hUt
      rw [if_neg hUt]
      exact h.produced U hU hproduced

/-- A redefined tensor keeps its children. -/
theorem redefineTensor_eq_some {g' : Graph} {T : GraphTensor} {src : Nat} {dims : List Nat}
    (h : g.redefineTensor T src dims = some g') :
    ∃ f : GraphTensor → GraphTensor, g' = { g with tensors := g.tensors.map f } ∧
      ∀ U, (f U).id = U.id ∧ (f U).name = U.name ∧ (f U).produced = U.produced ∧
        (f U).childNodes = U.childNodes := by
  unfold redefineTensor at h
  split at h
  · refine ⟨_, (Option.some.inj h).symm, fun U => ?_⟩
    split <;> exact ⟨rfl, rfl, rfl, rfl⟩
  · split at h
    · obtain rfl := Option.some.inj h
      exact ⟨id, by simp, fun U => ⟨rfl, rfl, rfl, rfl⟩⟩
    · cases h

theorem Wiring.redefineTensor {g' : Graph} {T : GraphTensor} {src : Nat} {dims : List Nat}
    (h : Wiring g ops mambas) (hg : g.redefineTensor T src dims = some g') :
    Wiring g' ops mambas ∧ g'.nextId = g.nextId := by
  obtain ⟨f, rfl, hf⟩ := redefineTensor_eq_some hg
  have hids : (g.tensors.map f).map (·.id) = g.tensors.map (·.id) := by
    rw [List.map_map]
    exact List.map_congr_left fun U _ => (hf U).1
  refine ⟨⟨?_, fun U hU => ?_, h.opIds, h.opsBelow, fun o ho t ht => ?_, fun U hU c hc => ?_,
    h.producer, h.unfinished⟩, rfl⟩
  · rw [hids]
    exact h.tensorIds
  · obtain ⟨V, hV, rfl⟩ := List.mem_map.mp hU
    rw [(hf V).1]
    exact h.tensorsBelow V hV
  · have hexist : ∃ T ∈ ({ g with tensors := g.tensors.map f } : Graph).tensors, T.id = t :=
      exists_of_ids hids (h.exist o ho t ht)
    exact hexist
  · obtain ⟨V, hV, rfl⟩ := List.mem_map.mp hU
    obtain ⟨hid, -, -, hchildren⟩ := hf V
    rw [hchildren] at hc
    rw [hid]
    exact h.children V hV c hc

theorem Named.redefineTensor {g' : Graph} {T : GraphTensor} {src : Nat} {dims : List Nat}
    (h : Named g ops written sources) (hg : g.redefineTensor T src dims = some g') :
    Named g' ops written sources := by
  obtain ⟨f, rfl, hf⟩ := redefineTensor_eq_some hg
  refine ⟨fun o ho t ht => ?_, fun U hU hproduced => ?_⟩
  · obtain ⟨V, hV, hid, hproduced, hname⟩ := h.outputs o ho t ht
    obtain ⟨hid', hname', hproduced', -⟩ := hf V
    exact ⟨f V, List.mem_map_of_mem hV, hid'.trans hid, hproduced'.trans hproduced,
      hname'.symm ▸ hname⟩
  · obtain ⟨V, hV, rfl⟩ := List.mem_map.mp hU
    obtain ⟨-, hname', hproduced', -⟩ := hf V
    rw [hname']
    exact h.produced V hV (hproduced'.symm.trans hproduced)

theorem findTensor_eq_some {name : String} {T : GraphTensor} (h : g.findTensor name = some T) :
    T ∈ g.tensors ∧ T.name = name :=
  ⟨List.mem_of_find?_eq_some h, by simpa using List.find?_some h⟩

/-! ## The operation under construction -/

/-- The operation under construction gets inputs and outputs that exist; the outputs are those of no
other operation. -/
theorem Wiring.extend {op op' : Operation} (h : Wiring g (ops ++ [op]) mambas) (hid : op'.id = op.id)
    (hin : ∀ t ∈ op.inputs, t ∈ op'.inputs) (hout : ∀ t ∈ op.outputs, t ∈ op'.outputs)
    (hfinish : op'.finish = false)
    (hexist : ∀ t ∈ op'.inputs ++ op'.outputs, ∃ T ∈ g.tensors, T.id = t)
    (hproducer : ∀ t ∈ op'.outputs, t ∈ op.outputs ∨ ∀ x ∈ ops, t ∉ x.outputs) :
    Wiring g (ops ++ [op']) mambas := by
  have hids : (ops ++ [op']).map (·.id) = (ops ++ [op]).map (·.id) := by simp [hid]
  have hlast : op ∈ ops ++ [op] := List.mem_append_right _ (List.mem_singleton_self op)
  refine ⟨h.tensorIds, h.tensorsBelow, hids ▸ h.opIds, fun o ho => ?_, fun o ho => ?_,
    fun T hT c hc => ?_, fun x hx y hy t htx hty => ?_, fun o ho => ?_⟩
  · rcases List.mem_append.mp ho with ho | ho
    · exact h.opsBelow o (List.mem_append_left _ ho)
    · obtain rfl := List.mem_singleton.mp ho
      rw [hid]
      exact h.opsBelow op hlast
  · rcases List.mem_append.mp ho with ho | ho
    · exact h.exist o (List.mem_append_left _ ho)
    · obtain rfl := List.mem_singleton.mp ho
      exact hexist
  · obtain ⟨o, ho, hoc, hread⟩ := h.children T hT c hc
    rcases List.mem_append.mp ho with ho | ho
    · exact ⟨o, List.mem_append_left _ ho, hoc, hread⟩
    · obtain rfl := List.mem_singleton.mp ho
      exact ⟨op', List.mem_append_right _ (List.mem_singleton_self op'), hid.trans hoc,
        hread.imp (hin _) fun hmamba => ⟨hout _ hmamba.1, hmamba.2⟩⟩
  · have hboth : ∀ x ∈ ops, ∀ t ∈ x.outputs, t ∈ op'.outputs → x.id = op'.id := by
      intro x hx t htx ht
      rcases hproducer t ht with hold | hnone
      · rw [hid]
        exact h.producer x (List.mem_append_left _ hx) op hlast t htx hold
      · exact absurd htx (hnone x hx)
    rcases List.mem_append.mp hx with hx' | hx'
    · rcases List.mem_append.mp hy with hy' | hy'
      · exact h.producer x (List.mem_append_left _ hx') y (List.mem_append_left _ hy') t htx hty
      · rw [List.mem_singleton.mp hy'] at hty ⊢
        exact hboth x hx' t htx hty
    · rw [List.mem_singleton.mp hx'] at htx ⊢
      rcases List.mem_append.mp hy with hy' | hy'
      · exact (hboth y hy' t hty htx).symm
      · rw [List.mem_singleton.mp hy']
  · rcases List.mem_append.mp ho with ho | ho
    · exact h.unfinished o (List.mem_append_left _ ho)
    · rwa [List.mem_singleton.mp ho]

/-- A new operation has no tensors yet. -/
theorem Wiring.begin (h : Wiring g ops mambas) :
    Wiring { g with nextId := g.nextId + 1 } (ops ++ [{ id := g.nextId }]) mambas := by
  refine ⟨h.tensorIds, fun T hT => Nat.lt_succ_of_lt (h.tensorsBelow T hT), ?_, fun o ho => ?_,
    fun o ho => ?_, fun T hT c hc => ?_, fun x hx y hy t htx hty => ?_, fun o ho => ?_⟩
  · rw [List.map_append]
    refine List.nodup_append.mpr ⟨h.opIds, by simp, ?_⟩
    rintro i hi _ hnew rfl
    obtain ⟨o, ho, rfl⟩ := List.mem_map.mp hi
    have hlt := h.opsBelow o ho
    have hid : o.id = g.nextId := by simpa using hnew
    omega
  · rcases List.mem_append.mp ho with ho | ho
    · exact Nat.lt_succ_of_lt (h.opsBelow o ho)
    · obtain rfl := List.mem_singleton.mp ho
      exact Nat.lt_succ_self _
  · rcases List.mem_append.mp ho with ho | ho
    · exact h.exist o ho
    · obtain rfl := List.mem_singleton.mp ho
      intro t ht
      cases ht
  · obtain ⟨o, ho, hread⟩ := h.children T hT c hc
    exact ⟨o, List.mem_append_left _ ho, hread⟩
  · rcases List.mem_append.mp hx with hx | hx
    · rcases List.mem_append.mp hy with hy | hy
      · exact h.producer x hx y hy t htx hty
      · obtain rfl := List.mem_singleton.mp hy
        cases hty
    · obtain rfl := List.mem_singleton.mp hx
      cases htx
  · rcases List.mem_append.mp ho with ho | ho
    · exact h.unfinished o ho
    · rw [List.mem_singleton.mp ho]

theorem Named.begin (h : Named g ops written sources) : Named { g with nextId := g.nextId + 1 }
    (ops ++ [{ id := g.nextId }]) written sources := by
  refine ⟨fun o ho t ht => ?_, h.produced⟩
  rcases List.mem_append.mp ho with ho | ho
  · exact h.outputs o ho t ht
  · obtain rfl := List.mem_singleton.mp ho
    cases ht

/-- The outputs are the same. -/
theorem Named.outputs_congr {ops' : List Operation} (h : Named g ops written sources)
    (hops : ∀ o' ∈ ops', ∃ o ∈ ops, o'.outputs = o.outputs) : Named g ops' written sources := by
  refine ⟨fun o' ho' t ht => ?_, h.produced⟩
  obtain ⟨o, ho, hout⟩ := hops o' ho'
  exact h.outputs o ho t (hout ▸ ht)

theorem Named.mono {written' : List String} (h : Named g ops written sources)
    (hwritten : ∀ name ∈ written, name ∈ written') : Named g ops written' sources := by
  refine ⟨fun o ho t ht => ?_, h.produced⟩
  obtain ⟨T, hT, hid, hproduced, hname⟩ := h.outputs o ho t ht
  exact ⟨T, hT, hid, hproduced, hwritten _ hname⟩

/-- Tensors are added, and children to those that exist. -/
structure Extends (g g' : Graph) : Prop where
  operations : g'.operations = g.operations
  attentions : g'.attentions = g.attentions
  mambas : g'.mambas = g.mambas
  nextId : g.nextId ≤ g'.nextId
  children : ∀ T ∈ g.tensors, ∃ T' ∈ g'.tensors, T'.id = T.id ∧ ∀ c ∈ T.childNodes, c ∈ T'.childNodes

theorem Extends.refl (g : Graph) : Extends g g :=
  ⟨rfl, rfl, rfl, Nat.le_refl _, fun T hT => ⟨T, hT, rfl, fun _ hc => hc⟩⟩

theorem Extends.trans {g' g'' : Graph} (h : Extends g g') (h' : Extends g' g'') :
    Extends g g'' := by
  refine ⟨h'.operations.trans h.operations, h'.attentions.trans h.attentions,
    h'.mambas.trans h.mambas, h.nextId.trans h'.nextId, fun T hT => ?_⟩
  obtain ⟨T', hT', hid, hchildren⟩ := h.children T hT
  obtain ⟨T'', hT'', hid', hchildren'⟩ := h'.children T' hT'
  exact ⟨T'', hT'', hid'.trans hid, fun c hc => hchildren' c (hchildren c hc)⟩

theorem extends_newTensor (name : String) (dims : List Nat) (src : Nat) (produced : Bool) :
    Extends g (g.newTensor name dims src produced).2 :=
  ⟨rfl, rfl, rfl, Nat.le_succ _, fun T hT => ⟨T, List.mem_append_left _ hT, rfl, fun _ hc => hc⟩⟩

theorem extends_addChildNode (t op : Nat) : Extends g (g.addChildNode t op) := by
  refine ⟨rfl, rfl, rfl, Nat.le_refl _, fun T hT => ⟨_, mem_addChildNode.mpr ⟨T, hT, rfl⟩, ?_⟩⟩
  split
  · exact ⟨rfl, fun c hc => List.mem_append_left _ hc⟩
  · exact ⟨rfl, fun c hc => hc⟩

theorem extends_redefineTensor {g' : Graph} {T : GraphTensor} {src : Nat} {dims : List Nat}
    (h : g.redefineTensor T src dims = some g') : Extends g g' := by
  obtain ⟨f, rfl, hf⟩ := redefineTensor_eq_some h
  refine ⟨rfl, rfl, rfl, Nat.le_refl _, fun U hU => ⟨f U, List.mem_map_of_mem hU, (hf U).1, ?_⟩⟩
  rw [(hf U).2.2.2]
  exact fun c hc => hc

/-- The tensor of an input exists. -/
theorem inputTensor_sound (h : Wiring g ops mambas) (hn : Named g ops written sources)
    (name : String) : Wiring (g.inputTensor name).2 ops mambas ∧
      Named (g.inputTensor name).2 ops written sources ∧ Extends g (g.inputTensor name).2 ∧
      ∃ T ∈ (g.inputTensor name).2.tensors, T.id = (g.inputTensor name).1 := by
  unfold inputTensor
  split
  · rename_i T hname
    exact ⟨h, hn, .refl g, T, (findTensor_eq_some hname).1, rfl⟩
  · exact ⟨h.newTensor name [] 0 false,
      hn.newTensor fun hproduced => (Bool.false_ne_true hproduced).elim,
      extends_newTensor name [] 0 false, _,
      List.mem_append_right _ (List.mem_singleton_self _), rfl⟩

/-- The base constructor wires the inputs. -/
theorem readInputs_sound {op : Nat} (names : List String) {ins : List Nat}
    (h : Wiring g (ops ++ [{ id := op, inputs := ins }]) mambas)
    (hn : Named g (ops ++ [{ id := op, inputs := ins }]) written sources) :
    Wiring (readInputs op names g).2
      (ops ++ [{ id := op, inputs := ins ++ (readInputs op names g).1 }]) mambas ∧
    Named (readInputs op names g).2
      (ops ++ [{ id := op, inputs := ins ++ (readInputs op names g).1 }]) written sources ∧
    Extends g (readInputs op names g).2 := by
  induction names generalizing g ins with
  | nil =>
    rw [readInputs]
    simp only [List.append_nil]
    exact ⟨h, hn, .refl g⟩
  | cons name rest ih =>
    rw [readInputs]
    split
    · exact ih h hn
    · obtain ⟨hu, hnu, hext, hexist⟩ := inputTensor_sound h hn name
      generalize g.inputTensor name = found at hu hnu hext hexist
      obtain ⟨t, u⟩ := found
      simp only at hu hnu hext hexist ⊢
      have hin : Wiring u (ops ++ [{ id := op, inputs := ins ++ [t] }]) mambas := by
        refine hu.extend rfl (fun x hx => List.mem_append_left _ hx) (fun x hx => hx) rfl ?_ ?_
        · intro x hx
          rw [List.append_nil] at hx
          rcases List.mem_append.mp hx with hx | hx
          · exact hu.exist _ (List.mem_append_right _ (List.mem_singleton_self _)) x
              (List.mem_append_left _ hx)
          · exact List.mem_singleton.mp hx ▸ hexist
        · exact fun x hx => .inl hx
      have hchild : Wiring (u.addChildNode t op) (ops ++ [{ id := op, inputs := ins ++ [t] }])
          mambas :=
        hin.addChildNode (List.mem_append_right _ (List.mem_singleton_self _)) rfl (.inl (by simp))
      have hnchild : Named (u.addChildNode t op) (ops ++ [{ id := op, inputs := ins ++ [t] }])
          written sources := by
        refine (hnu.addChildNode t op).outputs_congr fun o ho => ?_
        rcases List.mem_append.mp ho with ho | ho
        · exact ⟨o, List.mem_append_left _ ho, rfl⟩
        · obtain rfl := List.mem_singleton.mp ho
          exact ⟨_, List.mem_append_right _ (List.mem_singleton_self _), rfl⟩
      obtain ⟨hw, hnamed, hext'⟩ := ih hchild hnchild
      rw [List.append_assoc] at hw hnamed
      exact ⟨hw, hnamed, hext.trans ((extends_addChildNode t op).trans hext')⟩

/-- A tensor of a name that has not been written is no output. -/
theorem Wiring.not_output (h : Wiring g ops mambas) (hn : Named g ops written sources)
    {T : GraphTensor} (hT : T ∈ g.tensors) (hname : T.name ∉ written) :
    ∀ x ∈ ops, T.id ∉ x.outputs := by
  intro x hx ht
  obtain ⟨U, hU, hid, -, hwritten⟩ := hn.outputs x hx T.id ht
  obtain rfl := List.inj_on_of_nodup_map h.tensorIds hU hT hid
  exact hname hwritten

/-- A fresh tensor is no output. -/
theorem Wiring.fresh_not_output (h : Wiring g ops mambas) : ∀ x ∈ ops, g.nextId ∉ x.outputs := by
  intro x hx ht
  obtain ⟨T, hT, hid⟩ := h.exist x hx _ (List.mem_append_right _ ht)
  have hlt := h.tensorsBelow T hT
  omega

section write

variable {cur : Operation} {output : String × List Nat}

/-- The operation under construction gets one more output. -/
theorem Wiring.extendOutput {t : Nat} (h : Wiring g (ops ++ [cur]) mambas)
    (hexist : ∃ T ∈ g.tensors, T.id = t) (hnew : ∀ x ∈ ops, t ∉ x.outputs) :
    Wiring g (ops ++ [{ cur with outputs := cur.outputs ++ [t] }]) mambas := by
  have hlast : cur ∈ ops ++ [cur] := List.mem_append_right _ (List.mem_singleton_self cur)
  refine h.extend rfl (fun x hx => hx) (fun x hx => List.mem_append_left _ hx)
    (h.unfinished cur hlast) (fun x hx => ?_) (fun x hx => ?_)
  · rw [← List.append_assoc] at hx
    rcases List.mem_append.mp hx with hx | hx
    · exact h.exist cur hlast x hx
    · exact List.mem_singleton.mp hx ▸ hexist
  · rcases List.mem_append.mp hx with hx | hx
    · exact .inl hx
    · exact .inr (List.mem_singleton.mp hx ▸ hnew)

theorem Named.extendOutput {T : GraphTensor} (h : Named g (ops ++ [cur]) written sources)
    (hT : T ∈ g.tensors) (hproduced : T.produced = false) :
    Named g (ops ++ [{ cur with outputs := cur.outputs ++ [T.id] }]) (T.name :: written) sources := by
  refine ⟨fun o ho t ht => ?_, h.produced⟩
  have hold : ∀ o ∈ ops ++ [cur], ∀ t ∈ o.outputs,
      ∃ T' ∈ g.tensors, T'.id = t ∧ T'.produced = false ∧ T'.name ∈ T.name :: written := by
    intro o ho t ht
    obtain ⟨T', hT', hid, hproduced', hname⟩ := h.outputs o ho t ht
    exact ⟨T', hT', hid, hproduced', List.mem_cons_of_mem _ hname⟩
  rcases List.mem_append.mp ho with ho | ho
  · exact hold o (List.mem_append_left _ ho) t ht
  · obtain rfl := List.mem_singleton.mp ho
    rcases List.mem_append.mp ht with ht | ht
    · exact hold cur (List.mem_append_right _ (List.mem_singleton_self cur)) t ht
    · exact ⟨T, hT, (List.mem_singleton.mp ht).symm, hproduced, List.mem_cons_self⟩

variable (h : Wiring g (ops ++ [cur]) mambas) (hn : Named g (ops ++ [cur]) written sources)

/-- What a write of output `output` does to operation `cur`. -/
structure Wrote (g g' : Graph) (ops : List Operation) (cur : Operation) (mambas : List Nat)
    (written sources : List String) (ts : List Nat) : Prop where
  wiring : Wiring g' (ops ++ [{ cur with outputs := cur.outputs ++ ts }]) mambas
  named : Named g' (ops ++ [{ cur with outputs := cur.outputs ++ ts }]) written sources
  ext : Extends g g'

include h hn

theorem writeOutput_sound {g' : Graph} {ts : List Nat}
    (hw : g.writeOutput cur.id output = some (ts, g')) :
    Wrote g g' ops cur mambas (output.1 :: written) sources ts := by
  unfold writeOutput at hw
  split at hw
  · obtain ⟨rfl, rfl⟩ := Prod.mk.inj (Option.some.inj hw)
    have hnew := h.newTensor output.1 output.2 cur.id false
    have hnnew : Named (g.newTensor output.1 output.2 cur.id false).2 (ops ++ [cur]) written
        sources := hn.newTensor fun hproduced => (Bool.false_ne_true hproduced).elim
    have hmem : ({ id := g.nextId, name := output.1, dims := output.2, srcNode := cur.id } :
        GraphTensor) ∈ (g.newTensor output.1 output.2 cur.id false).2.tensors :=
      List.mem_append_right _ (List.mem_singleton_self _)
    exact ⟨hnew.extendOutput ⟨_, hmem, rfl⟩ fun x hx =>
      h.fresh_not_output x (List.mem_append_left _ hx), hnnew.extendOutput hmem rfl,
      extends_newTensor _ _ _ _⟩
  · obtain ⟨g'', hg, hw⟩ := Option.bind_eq_some_iff.mp hw
    obtain ⟨rfl, rfl⟩ := Prod.mk.inj (Option.some.inj hw)
    have hsame : ({ cur with outputs := cur.outputs ++ [] } : Operation) = cur := by
      rw [List.append_nil]
    refine ⟨?_, ?_, extends_redefineTensor hg⟩
    · rw [hsame]
      exact (h.redefineTensor hg).1
    · rw [hsame]
      exact (hn.redefineTensor hg).mono fun _ hname => List.mem_cons_of_mem _ hname

theorem writeMambaOutput_sound {g' : Graph} {ts : List Nat} (hmamba : cur.id ∈ mambas)
    (hwritten : output.1 ∉ written) (hsource : output.1 ∉ sources)
    (hw : g.writeMambaOutput cur.id output = some (ts, g')) :
    Wrote g g' ops cur mambas (output.1 :: written) sources ts ∧
      ∃ T ∈ g'.tensors, T.id ∈ ts ∧ cur.id ∈ T.childNodes := by
  -- the block becomes a child of tensor `T` once `T` is its output
  have hown : ∀ {u : Graph} {T : GraphTensor}, Wiring u (ops ++ [cur]) mambas →
      Named u (ops ++ [cur]) written sources → Extends g u → T ∈ u.tensors → T.name = output.1 →
      T.produced = false → (∀ x ∈ ops, T.id ∉ x.outputs) →
      Wrote g (u.addChildNode T.id cur.id) ops cur mambas (output.1 :: written) sources [T.id] ∧
        ∃ T' ∈ (u.addChildNode T.id cur.id).tensors, T'.id ∈ [T.id] ∧ cur.id ∈ T'.childNodes := by
    intro u T hu hnu hext hT hname hproduced hnot
    have hout := hu.extendOutput ⟨T, hT, rfl⟩ hnot
    have hchild : Wiring (u.addChildNode T.id cur.id)
        (ops ++ [{ cur with outputs := cur.outputs ++ [T.id] }]) mambas := hout.addChildNode
      (List.mem_append_right _ (List.mem_singleton_self _)) rfl (.inr ⟨by simp, hmamba⟩)
    refine ⟨⟨hchild, ?_, hext.trans (extends_addChildNode _ _)⟩, ?_⟩
    · rw [← hname]
      exact (hnu.extendOutput hT hproduced).addChildNode _ _
    · refine ⟨_, mem_addChildNode.mpr ⟨T, hT, rfl⟩, ?_⟩
      rw [if_pos rfl]
      simp
  unfold writeMambaOutput at hw
  split at hw
  · obtain ⟨rfl, rfl⟩ := Prod.mk.inj (Option.some.inj hw)
    have hmem : ({ id := g.nextId, name := output.1, dims := output.2, srcNode := cur.id } :
        GraphTensor) ∈ (g.newTensor output.1 output.2 cur.id false).2.tensors :=
      List.mem_append_right _ (List.mem_singleton_self _)
    exact hown (h.newTensor output.1 output.2 cur.id false)
      (hn.newTensor fun hproduced => (Bool.false_ne_true hproduced).elim)
      (extends_newTensor _ _ _ _) hmem rfl rfl fun x hx =>
        h.fresh_not_output x (List.mem_append_left _ hx)
  · rename_i T hfound
    obtain ⟨g'', hg, hw⟩ := Option.bind_eq_some_iff.mp hw
    obtain ⟨rfl, rfl⟩ := Prod.mk.inj (Option.some.inj hw)
    obtain ⟨hT, hname⟩ := findTensor_eq_some hfound
    obtain ⟨f, rfl, hf⟩ := redefineTensor_eq_some hg
    obtain ⟨hid, hname', hproduced', -⟩ := hf T
    have hclean : T.produced = false := by
      by_contra hproduced
      exact hsource (hname ▸ hn.produced T hT (by simpa using hproduced))
    have hnot := h.not_output hn hT (hname ▸ hwritten)
    rw [← hid]
    exact hown (h.redefineTensor hg).1 (hn.redefineTensor hg) (extends_redefineTensor hg)
      (List.mem_map_of_mem hT) (hname'.trans hname) (hproduced'.trans hclean) fun x hx => by
        rw [hid]
        exact hnot x (List.mem_append_left _ hx)

end write

end Graph

end OnnxSim
