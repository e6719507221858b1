import Mathlib.Data.List.Perm.Subperm
import OnnxSim.Lib.Machine
import OnnxSim.Model

/-!
# Runs of a model

A scheduler takes operations out of a model with `get_executable_tile` and reports them with
`set_layer_finish`. In a well wired graph an operation that has been taken reads outputs of finished
operations only (`Model.Sound.inputs_finished`), and a finishing operation puts back an operation
that has been taken exactly when it is a child of its own outputs (`Model.Sound.once_iff`).
-/

namespace OnnxSim

namespace Model

/-- What the schedulers do not change of an operation. -/
def wires (op : Operation) : Nat × List Nat × List Nat := (op.id, op.inputs, op.outputs)

/-- The graph of operations and tensors is the same. -/
def SameGraph (m m' : Model) : Prop :=
  m'.operationMap.map wires = m.operationMap.map wires ∧
    ∀ t, (m'.tensorMap t).childNodes = (m.tensorMap t).childNodes

/-- A well wired graph: the children of a tensor read it, its producer apart; a tensor has one
producer; and an operation that reads outputs of another reads one that is not produced at first.
`init` are the tensors that are. -/
structure Wired (init : Nat → Bool) (m : Model) : Prop where
  ids : (m.operationMap.map (·.id)).Nodup
  children : ∀ x ∈ m.operationMap, ∀ t ∈ x.outputs, ∀ c ∈ (m.tensorMap t).childNodes, c ≠ x.id →
    ∃ y ∈ m.operationMap, y.id = c ∧ t ∈ y.inputs
  producer : ∀ x ∈ m.operationMap, ∀ y ∈ m.operationMap, ∀ t ∈ x.outputs, t ∈ y.outputs →
    x.id = y.id
  unmarked : ∀ x ∈ m.operationMap, ∀ y ∈ m.operationMap, ∀ t ∈ x.inputs, t ∈ y.outputs →
    ∃ u ∈ x.inputs, u ∈ y.outputs ∧ init u = false

/-- What holds of a model from which `returned` have been taken and in which `finished` have
finished. -/
structure Sound (init : Nat → Bool) (returned finished : List Nat) (m : Model) : Prop where
  wired : m.Wired init
  produced : ∀ t, (m.tensorMap t).produced = true ↔
    init t = true ∨ ∃ x ∈ m.operationMap, x.id ∈ finished ∧ t ∈ x.outputs
  finish : ∀ x ∈ m.operationMap, x.finish = true ↔ x.id ∈ finished
  ready : ∀ id ∈ returned ++ m.executableLayer,
    ∃ x ∈ m.operationMap, x.id = id ∧ m.checkExecutable x
  taken : ∀ id ∈ finished, id ∈ returned

/-- No operation is twice among those that have been taken and those that may be. -/
def Once (returned : List Nat) (m : Model) : Prop := (returned ++ m.executableLayer).Nodup

/-- An operation is a child of one of its own outputs. -/
def SelfChild (m : Model) (id : Nat) : Prop :=
  ∃ x ∈ m.operationMap, x.id = id ∧ id ∈ m.childNodes x

variable {init : Nat → Bool} {returned finished : List Nat} {m m' : Model}

/-! ## The graph -/

theorem SameGraph.symm (h : SameGraph m m') : SameGraph m' m :=
  ⟨h.1.symm, fun t => (h.2 t).symm⟩

theorem SameGraph.refl (m : Model) : SameGraph m m := ⟨rfl, fun _ => rfl⟩

theorem SameGraph.trans {m'' : Model} (h : SameGraph m m') (h' : SameGraph m' m'') :
    SameGraph m m'' :=
  ⟨h'.1.trans h.1, fun t => (h'.2 t).trans (h.2 t)⟩

theorem SameGraph.exists_wires (h : SameGraph m m') {x : Operation} (hx : x ∈ m'.operationMap) :
    ∃ y ∈ m.operationMap, wires y = wires x := by
  have hmem := List.mem_map_of_mem (f := wires) hx
  rw [h.1] at hmem
  exact List.mem_map.mp hmem

theorem wires_eq {x y : Operation} (h : wires x = wires y) :
    x.id = y.id ∧ x.inputs = y.inputs ∧ x.outputs = y.outputs := by
  simpa [wires] using h

theorem SameGraph.ids (h : SameGraph m m') :
    m'.operationMap.map (·.id) = m.operationMap.map (·.id) := by
  have hids := congrArg (List.map Prod.fst) h.1
  rw [List.map_map, List.map_map] at hids
  exact hids

theorem Wired.same (h : m.Wired init) (hsame : SameGraph m m') : m'.Wired init := by
  refine ⟨hsame.ids ▸ h.ids, ?_, ?_, ?_⟩
  · intro x hx t ht c hc hne
    obtain ⟨x', hx', hwx⟩ := hsame.exists_wires hx
    obtain ⟨hid, -, hout⟩ := wires_eq hwx
    rw [hsame.2] at hc
    obtain ⟨y', hy', hyc, hty⟩ := h.children x' hx' t (hout ▸ ht) c hc (hid ▸ hne)
    obtain ⟨y, hy, hwy⟩ := hsame.symm.exists_wires hy'
    obtain ⟨hidy, hiny, -⟩ := wires_eq hwy
    exact ⟨y, hy, hidy.trans hyc, hiny ▸ hty⟩
  · intro x hx y hy t htx hty
    obtain ⟨x', hx', hwx⟩ := hsame.exists_wires hx
    obtain ⟨y', hy', hwy⟩ := hsame.exists_wires hy
    obtain ⟨hidx, -, houtx⟩ := wires_eq hwx
    obtain ⟨hidy, -, houty⟩ := wires_eq hwy
    rw [← hidx, ← hidy]
    exact h.producer x' hx' y' hy' t (houtx ▸ htx) (houty ▸ hty)
  · intro x hx y hy t htx hty
    obtain ⟨x', hx', hwx⟩ := hsame.exists_wires hx
    obtain ⟨y', hy', hwy⟩ := hsame.exists_wires hy
    obtain ⟨-, hinx, -⟩ := wires_eq hwx
    obtain ⟨-, -, houty⟩ := wires_eq hwy
    obtain ⟨u, hux, huy, hu⟩ := h.unmarked x' hx' y' hy' t (hinx ▸ htx) (houty ▸ hty)
    exact ⟨u, hinx ▸ hux, houty ▸ huy, hu⟩

theorem Wired.eq_of_id (h : m.Wired init) {x y : Operation} (hx : x ∈ m.operationMap)
    (hy : y ∈ m.operationMap) (hid : x.id = y.id) : x = y :=
  List.inj_on_of_nodup_map h.ids hx hy hid

theorem findOperation_eq_some {id : Nat} {x : Operation} (h : m.findOperation id = some x) :
    x ∈ m.operationMap ∧ x.id = id :=
  ⟨List.mem_of_find?_eq_some h, by simpa using List.find?_some h⟩

theorem Wired.findOperation (h : m.Wired init) {x : Operation} (hx : x ∈ m.operationMap) :
    m.findOperation x.id = some x := by
  obtain ⟨y, hy⟩ : ∃ y, m.findOperation x.id = some y := by
    rw [← Option.isSome_iff_exists]
    unfold Model.findOperation
    rw [List.find?_isSome]
    exact ⟨x, hx, by simp⟩
  obtain ⟨hmem, hid⟩ := findOperation_eq_some hy
  rw [hy, h.eq_of_id hmem hx hid]

/-- An operation that has been taken, or may be, reads outputs of finished operations only. -/
theorem Sound.inputs_finished (h : m.Sound init returned finished) {x y : Operation} {t : Nat}
    (hx : x ∈ m.operationMap) (hready : x.id ∈ returned ++ m.executableLayer)
    (hy : y ∈ m.operationMap) (htx : t ∈ x.inputs) (hty : t ∈ y.outputs) : y.id ∈ finished := by
  obtain ⟨u, hux, huy, hinit⟩ := h.wired.unmarked x hx y hy t htx hty
  obtain ⟨x', hx', hid, hexec⟩ := h.ready x.id hready
  obtain rfl := h.wired.eq_of_id hx' hx hid
  have hproduced := List.all_eq_true.mp hexec u hux
  rcases (h.produced u).mp hproduced with hinit' | ⟨z, hz, hfinished, huz⟩
  · rw [hinit] at hinit'
    cases hinit'
  · rwa [h.wired.producer z hz y hy u huz huy] at hfinished

/-! ## Taking an operation -/

theorem getExecutableTile_eq_some {op : Operation} (h : m.getExecutableTile = some (op, m')) :
    ∃ rest, m.executableLayer = op.id :: rest ∧ op ∈ m.operationMap ∧
      m' = { m with executableLayer := rest } := by
  unfold getExecutableTile at h
  split at h
  · cases h
  · rename_i id rest hexec
    obtain ⟨o, ho, h⟩ := Option.bind_eq_some_iff.mp h
    obtain ⟨rfl, rfl⟩ := Prod.mk.inj (Option.some.inj h)
    obtain ⟨hmem, rfl⟩ := findOperation_eq_some ho
    exact ⟨rest, hexec, hmem, rfl⟩

theorem Sound.getExecutableTile {op : Operation} (h : m.Sound init returned finished)
    (hm : m.getExecutableTile = some (op, m')) : m'.Sound init (returned ++ [op.id]) finished := by
  obtain ⟨rest, hexec, -, rfl⟩ := getExecutableTile_eq_some hm
  refine ⟨h.wired.same ⟨rfl, fun _ => rfl⟩, h.produced, h.finish, fun id hid => h.ready id ?_,
    fun id hid => List.mem_append_left _ (h.taken id hid)⟩
  rw [hexec]
  simpa [List.append_assoc] using hid

theorem Once.getExecutableTile {op : Operation} (hm : m.getExecutableTile = some (op, m')) :
    Once (returned ++ [op.id]) m' ↔ Once returned m := by
  obtain ⟨rest, hexec, -, rfl⟩ := getExecutableTile_eq_some hm
  unfold Once
  rw [hexec]
  simp [List.append_assoc]

/-! ## Finishing an operation -/

/-- The children that are pushed are those that have become executable. -/
theorem pushExecutable_eq_some {ids : List Nat} (h : m.pushExecutable ids = some m') :
    ∃ new, m' = { m with executableLayer := m.executableLayer ++ new } ∧ new.Nodup ∧
      ∀ c, c ∈ new ↔ c ∈ ids ∧ c ∉ m.executableLayer ∧
        ∃ op, m.findOperation c = some op ∧ m.checkExecutable op := by
  induction ids generalizing m with
  | nil =>
    obtain rfl := Option.some.inj h
    exact ⟨[], by simp, List.nodup_nil, by simp⟩
  | cons id ids ih =>
    obtain ⟨op, hop, h⟩ := Option.bind_eq_some_iff.mp h
    simp only at h
    split at h
    · rename_i hpush
      obtain ⟨hexec, hnew⟩ : m.checkExecutable op = true ∧ id ∉ m.executableLayer := by
        simpa using hpush
      obtain ⟨new, rfl, hnodup, hmem⟩ := ih h
      have hnot : id ∉ new := fun hid => ((hmem id).mp hid).2.1 (by simp)
      refine ⟨id :: new, by simp, List.nodup_cons.mpr ⟨hnot, hnodup⟩, fun c => ?_⟩
      rw [List.mem_cons, List.mem_cons, hmem c]
      by_cases hc : c = id
      · subst hc
        simpa using ⟨hnew, op, hop, hexec⟩
      · have hfind : findOperation { m with executableLayer := m.executableLayer ++ [id] } c =
            m.findOperation c := rfl
        have hcheck : ∀ o, checkExecutable { m with executableLayer := m.executableLayer ++ [id] } o =
            m.checkExecutable o := fun _ => rfl
        simp [hc, hfind, hcheck]
    · rename_i hskip
      obtain ⟨new, rfl, hnodup, hmem⟩ := ih h
      refine ⟨new, rfl, hnodup, fun c => ?_⟩
      rw [hmem c, List.mem_cons]
      by_cases hc : c = id
      · subst hc
        have hno : ¬ (c ∉ m.executableLayer ∧
            ∃ o, m.findOperation c = some o ∧ m.checkExecutable o) := by
          rintro ⟨hnot, o, ho, hexec⟩
          obtain rfl := Option.some.inj (hop.symm.trans ho)
          simp [hexec, hnot] at hskip
        simp [hno]
      · simp [hc]

theorem setFinish_sameGraph (op : Operation) : SameGraph m (m.setFinish op) := by
  refine ⟨?_, fun t => ?_⟩
  · unfold setFinish
    rw [List.map_map]
    refine List.map_congr_left fun o _ => ?_
    simp only [Function.comp_apply]
    split <;> rfl
  · unfold setFinish
    simp only
    split <;> rfl

theorem setFinish_produced (op : Operation) (t : Nat) : ((m.setFinish op).tensorMap t).produced =
    (decide (t ∈ op.outputs) || (m.tensorMap t).produced) := by
  unfold setFinish
  simp only
  split <;> simp_all

theorem checkExecutable_setFinish (op : Operation) {x : Operation} (h : m.checkExecutable x) :
    (m.setFinish op).checkExecutable x := by
  refine List.all_eq_true.mpr fun t ht => ?_
  rw [setFinish_produced, List.all_eq_true.mp h t ht, Bool.or_true]

/-- The operations after one of them has finished. -/
theorem mem_setFinish {op x : Operation} (hx : x ∈ (m.setFinish op).operationMap) :
    ∃ y ∈ m.operationMap, wires y = wires x ∧
      (x.finish = true ↔ y.id = op.id ∨ y.finish = true) := by
  obtain ⟨y, hy, rfl⟩ := List.mem_map.mp hx
  refine ⟨y, hy, ?_, ?_⟩
  · split <;> rfl
  · split <;> simp_all

theorem Sound.setFinish {op : Operation} (h : m.Sound init returned finished)
    (hop : op ∈ m.operationMap) (hreturned : op.id ∈ returned) :
    (m.setFinish op).Sound init returned (finished ++ [op.id]) := by
  have hsame := setFinish_sameGraph (m := m) op
  refine ⟨h.wired.same hsame, fun t => ?_, fun x hx => ?_, fun id hid => ?_, fun id hid => ?_⟩
  · rw [setFinish_produced, Bool.or_eq_true, decide_eq_true_iff, h.produced t]
    constructor
    · rintro (ht | hinit | ⟨x, hx, hfinished, ht⟩)
      · obtain ⟨x, hx, hwires⟩ := hsame.symm.exists_wires hop
        obtain ⟨hid, -, hout⟩ := wires_eq hwires
        exact .inr ⟨x, hx, by simp [hid], hout ▸ ht⟩
      · exact .inl hinit
      · obtain ⟨x', hx', hwires⟩ := hsame.symm.exists_wires hx
        obtain ⟨hid, -, hout⟩ := wires_eq hwires
        exact .inr ⟨x', hx', by simp [hid, hfinished], hout ▸ ht⟩
    · rintro (hinit | ⟨x, hx, hfinished, ht⟩)
      · exact .inr (.inl hinit)
      · obtain ⟨y, hy, hwires⟩ := hsame.exists_wires hx
        obtain ⟨hid, -, hout⟩ := wires_eq hwires
        rw [← hid] at hfinished
        rw [← hout] at ht
        rcases List.mem_append.mp hfinished with hfinished | hfinished
        · exact .inr (.inr ⟨y, hy, hfinished, ht⟩)
        · have hyop := h.wired.eq_of_id hy hop (List.mem_singleton.mp hfinished)
          exact .inl (hyop ▸ ht)
  · obtain ⟨y, hy, hwires, hfinish⟩ := mem_setFinish hx
    obtain ⟨hid, -⟩ := wires_eq hwires
    rw [hfinish, h.finish y hy, ← hid, List.mem_append, List.mem_singleton]
    exact or_comm
  · obtain ⟨x, hx, hxid, hexec⟩ := h.ready id hid
    obtain ⟨y, hy, hwires⟩ := hsame.symm.exists_wires hx
    obtain ⟨hid', hin, -⟩ := wires_eq hwires
    refine ⟨y, hy, hid'.trans hxid, ?_⟩
    have hexec' := checkExecutable_setFinish op hexec
    unfold checkExecutable at hexec' ⊢
    rwa [hin]
  · rcases List.mem_append.mp hid with hid | hid
    · exact h.taken id hid
    · exact List.mem_singleton.mp hid ▸ hreturned

/-- A finished operation, and the executable children that are put in. -/
theorem setLayerFinish_eq_some {id : Nat} (h : m.setLayerFinish id = some m') :
    ∃ op, m.findOperation id = some op ∧ ∃ new,
      m' = { m.setFinish op with executableLayer := m.executableLayer ++ new } ∧ new.Nodup ∧
      ∀ c, c ∈ new ↔ c ∈ m.childNodes op ∧ c ∉ m.executableLayer ∧
        ∃ x, (m.setFinish op).findOperation c = some x ∧ (m.setFinish op).checkExecutable x := by
  obtain ⟨op, hop, h⟩ := Option.bind_eq_some_iff.mp h
  refine ⟨op, hop, ?_⟩
  have hchildren : (m.setFinish op).childNodes op = m.childNodes op := by
    unfold Model.childNodes
    exact List.flatMap_congr fun t _ => (setFinish_sameGraph (m := m) op).2 t
  have hpushed := pushExecutable_eq_some h
  rwa [hchildren] at hpushed

theorem Sound.setLayerFinish {id : Nat} (h : m.Sound init returned finished)
    (hreturned : id ∈ returned) (hm : m.setLayerFinish id = some m') :
    m'.Sound init returned (finished ++ [id]) := by
  obtain ⟨op, hop, new, rfl, -, hmem⟩ := setLayerFinish_eq_some hm
  obtain ⟨hopmem, rfl⟩ := findOperation_eq_some hop
  have hset := h.setFinish hopmem hreturned
  refine ⟨hset.wired.same ⟨rfl, fun _ => rfl⟩, hset.produced, hset.finish, fun c hc => ?_, hset.taken⟩
  have hsplit : c ∈ returned ++ (m.setFinish op).executableLayer ∨ c ∈ new := by
    simp only [← List.append_assoc] at hc
    exact List.mem_append.mp hc
  rcases hsplit with hc | hc
  · exact hset.ready c hc
  · obtain ⟨-, -, x, hx, hexec⟩ := (hmem c).mp hc
    obtain ⟨hxmem, hxid⟩ := findOperation_eq_some hx
    exact ⟨x, hxmem, hxid, hexec⟩

/-- A finishing operation puts back one that has been taken exactly when it is a child of its own
outputs: another child reads an output that was not produced, so it has not been taken. -/
theorem Sound.once_iff {id : Nat} (h : m.Sound init returned finished) (honce : Once returned m)
    (hreturned : id ∈ returned) (hrunning : id ∉ finished) (hm : m.setLayerFinish id = some m') :
    Once returned m' ↔ ¬ m.SelfChild id := by
  have hafter := h.setLayerFinish hreturned hm
  obtain ⟨op, hop, new, rfl, hnodup, hmem⟩ := setLayerFinish_eq_some hm
  obtain ⟨hopmem, rfl⟩ := findOperation_eq_some hop
  obtain ⟨hreturned', hexec', hdisjoint⟩ := List.nodup_append.mp honce
  have hsame := setFinish_sameGraph (m := m) op
  constructor
  · rintro hnext ⟨x, hx, hxid, hself⟩
    obtain rfl := h.wired.eq_of_id hx hopmem hxid
    obtain ⟨-, -, hapart⟩ := List.nodup_append.mp hnext
    refine hapart _ hreturned _ ?_ rfl
    -- its inputs have been produced, so it goes in unless it is there
    by_cases hthere : x.id ∈ m.executableLayer
    · exact List.mem_append_left _ hthere
    · refine List.mem_append_right _ ((hmem _).mpr ⟨hself, hthere, ?_⟩)
      obtain ⟨y, hy, hyid, hyexec⟩ :=
        hafter.ready x.id (List.mem_append_left _ hreturned)
      refine ⟨y, ?_, hyexec⟩
      rw [← hyid]
      exact (h.wired.same hsame).findOperation hy
  · intro hnot
    have hfresh : ∀ c ∈ new, c ∉ returned := by
      intro c hc hcr
      obtain ⟨hchild, -, -⟩ := (hmem c).mp hc
      obtain ⟨t, ht, hct⟩ := List.mem_flatMap.mp hchild
      have hne : c ≠ op.id := by
        rintro rfl
        exact hnot ⟨op, hopmem, rfl, hchild⟩
      obtain ⟨y, hy, hyc, hty⟩ := h.wired.children op hopmem t ht c hct hne
      exact hrunning (h.inputs_finished hy (by simp [hyc, hcr]) hopmem hty ht)
    refine List.nodup_append.mpr ⟨hreturned', ?_, ?_⟩
    · refine List.nodup_append.mpr ⟨hexec', hnodup, ?_⟩
      rintro c hc _ hc' rfl
      exact ((hmem c).mp hc').2.1 hc
    · rintro c hc _ hc' rfl
      rcases List.mem_append.mp hc' with hc' | hc'
      · exact hdisjoint c hc c hc' rfl
      · exact hfresh c hc' hc

/-! ## The graph stays -/

section

variable {id : Nat}

theorem SameGraph.selfChild (h : SameGraph m m') (hself : m.SelfChild id) : m'.SelfChild id := by
  obtain ⟨x, hx, rfl, hchild⟩ := hself
  obtain ⟨y, hy, hwires⟩ := h.symm.exists_wires hx
  obtain ⟨hid, -, houtputs⟩ := wires_eq hwires
  refine ⟨y, hy, hid, ?_⟩
  obtain ⟨t, ht, hc⟩ := List.mem_flatMap.mp hchild
  refine List.mem_flatMap.mpr ⟨t, houtputs ▸ ht, ?_⟩
  rw [h.2]
  exact hc

theorem getExecutableTile_sameGraph {op : Operation} (h : m.getExecutableTile = some (op, m')) :
    SameGraph m m' := by
  obtain ⟨rest, -, -, rfl⟩ := getExecutableTile_eq_some h
  exact SameGraph.refl m

theorem setLayerFinish_sameGraph (h : m.setLayerFinish id = some m') : SameGraph m m' := by
  obtain ⟨op, -, new, rfl, -⟩ := setLayerFinish_eq_some h
  exact setFinish_sameGraph op

/-- An operation that has been taken and has not finished reads none of its own outputs. -/
theorem Sound.not_reads_own (h : m.Sound init returned finished) (hreturned : id ∈ returned)
    (hrunning : id ∉ finished) {x : Operation} (hx : x ∈ m.operationMap) (hid : x.id = id) {t : Nat}
    (ht : t ∈ x.inputs) : t ∉ x.outputs := by
  intro hout
  subst hid
  exact hrunning (h.inputs_finished hx (List.mem_append_left _ hreturned) hx ht hout)

end

end Model

/-! ## The system -/

/-- A model, the operations that `get_executable_tile` has returned, and those that
`set_layer_finish` has been called for. -/
structure ModelRun where
  model : Model
  returned : List Nat := []
  finished : List Nat := []

namespace ModelRun

inductive Act
  | getExecutableTile
  | setLayerFinish (id : Nat)

/-- An operation finishes as often as it has been returned. -/
def step (s : ModelRun) : Act → Option ModelRun
  | .getExecutableTile => do
    let (op, m) ← s.model.getExecutableTile
    some { s with model := m, returned := s.returned ++ [op.id] }
  | .setLayerFinish id =>
    if s.finished.count id < s.returned.count id then do
      let m ← s.model.setLayerFinish id
      some { s with model := m, finished := s.finished ++ [id] }
    else none

def Run (m : Model) (h : List (ModelRun × Act)) (s : ModelRun) : Prop :=
  Machine.Run (Machine.partialDet step) { model := m } h s

/-- `get_executable_tile` has returned no operation twice, and none that it has returned is in
`_executable_layer`. -/
def Once (s : ModelRun) : Prop := s.model.Once s.returned

variable {init : Nat → Bool} {s u : ModelRun} {a : Act}

/-- The invariant of the runs. -/
def Sound (init : Nat → Bool) (s : ModelRun) : Prop := s.model.Sound init s.returned s.finished

theorem Sound.step (h : Sound init s) (hs : ModelRun.step s a = some u) : Sound init u := by
  cases a with
  | getExecutableTile =>
    obtain ⟨⟨op, m⟩, hm, hs⟩ := Option.bind_eq_some_iff.mp hs
    obtain rfl := Option.some.inj hs
    exact Model.Sound.getExecutableTile h hm
  | setLayerFinish id =>
    unfold ModelRun.step at hs
    simp only at hs
    split at hs
    · rename_i hcount
      obtain ⟨m, hm, hs⟩ := Option.bind_eq_some_iff.mp hs
      obtain rfl := Option.some.inj hs
      have hreturned : id ∈ s.returned := List.count_pos_iff.mp (by omega)
      exact Model.Sound.setLayerFinish h hreturned hm
    · cases hs

/-- The step does not finish an operation that is a child of its own outputs. -/
def NoSelfChild (s : ModelRun) : Act → Prop
  | .getExecutableTile => True
  | .setLayerFinish id => ¬ s.model.SelfChild id

theorem Sound.once_iff (h : Sound init s) (honce : Once s) (hs : ModelRun.step s a = some u) :
    Once u ↔ NoSelfChild s a := by
  cases a with
  | getExecutableTile =>
    obtain ⟨⟨op, m⟩, hm, hs⟩ := Option.bind_eq_some_iff.mp hs
    obtain rfl := Option.some.inj hs
    exact ⟨fun _ => trivial, fun _ => (Model.Once.getExecutableTile hm).mpr honce⟩
  | setLayerFinish id =>
    unfold ModelRun.step at hs
    simp only at hs
    split at hs
    · rename_i hcount
      obtain ⟨m, hm, hs⟩ := Option.bind_eq_some_iff.mp hs
      obtain rfl := Option.some.inj hs
      have hreturned : id ∈ s.returned := List.count_pos_iff.mp (by omega)
      have hone : s.returned.count id ≤ 1 :=
        List.nodup_iff_count_le_one.mp (List.nodup_append.mp honce).1 id
      have hrunning : id ∉ s.finished := List.count_eq_zero.mp (by omega)
      exact Model.Sound.once_iff h honce hreturned hrunning hm
    · cases hs

/-- Along a run each operation is taken once exactly when none finishes that is a child of its own
outputs. -/
theorem once_iff {m : Model} {h : List (ModelRun × Act)} (hm : m.Sound init [] [])
    (honce : m.Once []) (run : Run m h s) :
    Machine.Always Once h s ↔ Machine.EachStep NoSelfChild h := by
  have hiff := Machine.Run.always_iff_eachStep (I := Sound init) (P := Once)
    (R := fun _ _ => True) (C := NoSelfChild) run hm (fun _ _ _ hI hs => hI.step hs) honce
    (fun _ _ _ hI hP hs => by
      rw [and_true]
      exact hI.once_iff hP hs)
  exact ⟨fun h => hiff.mp ⟨h, fun _ _ => trivial⟩, fun h => (hiff.mpr h).1⟩

end ModelRun

end OnnxSim
