import OnnxSim.Model.Built

/-!
# The graph of a language model

The operations of a language model read tensors that exist and write new ones. Only the key and the
value outputs of a cache operation may be produced at first, and the attention operation that reads
them reads the query output of the same operation, which is not. So the graph is well wired
(`Graph.buildLanguage_sound`).
-/

namespace OnnxSim

namespace Graph

/-- A complete graph with no `MambaBlock`. -/
structure Sound (g : Graph) : Prop where
  wiring : Wiring g g.operations []
  unmarked : g.Unmarked
  mambas : g.mambas = []

/-- The tensor exists. -/
def Exists (g : Graph) (t : Nat) : Prop := ∃ T ∈ g.tensors, T.id = t

/-- The tensor exists and is not produced at first. -/
def Clean (g : Graph) (t : Nat) : Prop := ∃ T ∈ g.tensors, T.id = t ∧ T.produced = false

/-- An operation may read the tensor by itself: it is clean, or no operation writes it. -/
def Safe (g : Graph) (t : Nat) : Prop :=
  g.Exists t ∧ (g.Clean t ∨ ∀ y ∈ g.operations, t ∉ y.outputs)

/-- An operation may read the key and the value with the query. -/
structure Triple (g : Graph) (query key value : Nat) : Prop where
  clean : g.Clean query
  keyExists : g.Exists key
  valueExists : g.Exists value
  same : ∀ y ∈ g.operations, key ∈ y.outputs ∨ value ∈ y.outputs → query ∈ y.outputs

/-- The outputs of a cache operation, three for each batch. -/
def Triples (g : Graph) : List Nat → Prop
  | query :: key :: value :: rest => g.Triple query key value ∧ Triples g rest
  | _ => True

/-- The inputs exist, and those that another operation writes are read with a clean output of it. -/
def Reads (g : Graph) (inputs : List Nat) : Prop :=
  ∀ t ∈ inputs, g.Exists t ∧
    ∀ y ∈ g.operations, t ∈ y.outputs → ∃ u ∈ inputs, u ∈ y.outputs ∧ g.Clean u

variable {g : Graph} {inputs : List Nat} {flags : List Bool}

theorem Clean.exists {t : Nat} (h : g.Clean t) : g.Exists t := by
  obtain ⟨T, hT, hid, -⟩ := h
  exact ⟨T, hT, hid⟩

theorem Safe.reads (h : ∀ t ∈ inputs, g.Safe t) : g.Reads inputs := by
  intro t ht
  obtain ⟨hexist, hsafe⟩ := h t ht
  refine ⟨hexist, fun y hy hty => ?_⟩
  rcases hsafe with hclean | hnone
  · exact ⟨t, ht, hty, hclean⟩
  · exact absurd hty (hnone y hy)

theorem Triple.reads {query key value : Nat} (h : g.Triple query key value) :
    g.Reads [query, key, value] := by
  intro t ht
  simp only [List.mem_cons, List.not_mem_nil, or_false] at ht
  rcases ht with rfl | rfl | rfl
  · exact ⟨h.clean.exists, fun y _ hty => ⟨t, by simp, hty, h.clean⟩⟩
  · exact ⟨h.keyExists, fun y hy hty => ⟨query, by simp, h.same y hy (.inl hty), h.clean⟩⟩
  · exact ⟨h.valueExists, fun y hy hty => ⟨query, by simp, h.same y hy (.inr hty), h.clean⟩⟩

/-! ## Adding an operation -/

theorem addChildNodes_frame (op : Nat) (ts : List Nat) (g : Graph) :
    (addChildNodes op ts g).operations = g.operations ∧
      (addChildNodes op ts g).mambas = g.mambas ∧ (addChildNodes op ts g).nextId = g.nextId := by
  induction ts generalizing g with
  | nil => exact ⟨rfl, rfl, rfl⟩
  | cons t ts ih => exact ih (g.addChildNode t op)

/-- The tensors that exist keep their flags. -/
theorem addChildNodes_tensors (op : Nat) (ts : List Nat) {g : Graph} {T : GraphTensor}
    (hT : T ∈ g.tensors) : ∃ T' ∈ (addChildNodes op ts g).tensors,
      T'.id = T.id ∧ T'.produced = T.produced := by
  induction ts generalizing g T with
  | nil => exact ⟨T, hT, rfl, rfl⟩
  | cons t ts ih =>
    obtain ⟨T', hT', hid, hproduced⟩ := ih (mem_addChildNode.mpr ⟨T, hT, rfl⟩)
    refine ⟨T', hT', hid.trans ?_, hproduced.trans ?_⟩ <;> split <;> rfl

/-- New tensors exist, were not there before, and are clean where their flag is off. -/
theorem newTensors_sound {ops : List Operation} {mambas : List Nat} (src : Nat) (flags : List Bool)
    {g : Graph} (h : Wiring g ops mambas) :
    Wiring (newTensors src flags g).2 ops mambas ∧
    (newTensors src flags g).2.operations = g.operations ∧
    (newTensors src flags g).2.mambas = g.mambas ∧
    (∀ T ∈ g.tensors, T ∈ (newTensors src flags g).2.tensors) ∧
    (∀ t ∈ (newTensors src flags g).1, g.nextId ≤ t ∧ (newTensors src flags g).2.Exists t) ∧
    (newTensors src flags g).1.length = flags.length ∧
    ∀ i : Nat, flags[i]? = some false →
      ∃ t, (newTensors src flags g).1[i]? = some t ∧ (newTensors src flags g).2.Clean t := by
  induction flags generalizing g with
  | nil =>
    exact ⟨h, rfl, rfl, fun T hT => hT, fun t ht => (nomatch ht), rfl, fun i hi => (nomatch hi)⟩
  | cons flag rest ih =>
    obtain ⟨hw, hops, hmambas, hkeep, hnew, hlength, hclean⟩ := ih (h.newTensor "" [] src flag)
    have hmem : ({ id := g.nextId, name := "", dims := [], srcNode := src, produced := flag } :
        GraphTensor) ∈ (newTensors src rest (g.newTensor "" [] src flag).2).2.tensors :=
      hkeep _ (List.mem_append_right _ (List.mem_singleton_self _))
    refine ⟨hw, hops, hmambas, fun T hT => hkeep T (List.mem_append_left _ hT), fun t ht => ?_,
      congrArg (· + 1) hlength, fun i hi => ?_⟩
    · rcases List.mem_cons.mp ht with rfl | ht
      · exact ⟨Nat.le_refl _, _, hmem, rfl⟩
      · obtain ⟨hge, hexist⟩ := hnew t ht
        exact ⟨Nat.le_of_succ_le hge, hexist⟩
    · cases i with
      | zero =>
        obtain rfl : flag = false := by simpa using hi
        exact ⟨g.nextId, rfl, _, hmem, rfl, rfl⟩
      | succ i => exact hclean i hi

/-- What adding an operation does: `outputs` are new, and clean where their flag is off. -/
structure Added (g g' : Graph) (inputs outputs : List Nat) (flags : List Bool) : Prop where
  sound : g'.Sound
  exist : ∀ t, g.Exists t → g'.Exists t
  clean : ∀ t, g.Clean t → g'.Clean t
  operations : g'.operations = g.operations ++ [{ id := g.nextId, inputs := inputs, outputs := outputs }]
  new : ∀ t ∈ outputs, g'.Exists t ∧ ¬ g.Exists t
  length : outputs.length = flags.length
  flags : ∀ i : Nat, flags[i]? = some false → ∃ t, outputs[i]? = some t ∧ g'.Clean t

theorem addOperation_added (hg : g.Sound) (hreads : g.Reads inputs) (flags : List Bool) :
    Added g (g.addOperation inputs flags).2 inputs (g.addOperation inputs flags).1 flags := by
  obtain ⟨hwiring, hunmarked, hmambas⟩ := hg
  -- the inputs
  have hexist : ∀ t ∈ inputs, ∃ T ∈ g.tensors, T.id = t := fun t ht => (hreads t ht).1
  have hin : Wiring { g with nextId := g.nextId + 1 }
      (g.operations ++ [{ id := g.nextId, inputs := inputs }]) [] := by
    refine hwiring.begin.extend rfl (fun t ht => (nomatch ht)) (fun t ht => ht) rfl (fun t ht => ?_)
      fun t ht => (nomatch ht)
    rw [List.append_nil] at ht
    exact hexist t ht
  obtain ⟨hread, -⟩ := addChildNodes_sound g.nextId inputs hin
    (List.mem_append_right _ (List.mem_singleton_self _)) rfl fun t ht => ht
  obtain ⟨hops₁, hmambas₁, hnext⟩ := addChildNodes_frame g.nextId inputs
    { g with nextId := g.nextId + 1 }
  have hkept := fun T hT =>
    addChildNodes_tensors g.nextId inputs (g := { g with nextId := g.nextId + 1 }) (T := T) hT
  unfold addOperation
  simp only
  generalize addChildNodes g.nextId inputs { g with nextId := g.nextId + 1 } = u
    at hread hops₁ hmambas₁ hnext hkept
  -- the outputs
  obtain ⟨hw, hops₂, hmambas₂, hkeep, hnew, hlength, hflags⟩ :=
    newTensors_sound g.nextId flags hread
  generalize newTensors g.nextId flags u = created at hw hops₂ hmambas₂ hkeep hnew hlength hflags
  obtain ⟨outs, v⟩ := created
  simp only at hw hops₂ hmambas₂ hkeep hnew hlength hflags ⊢
  simp only at hops₁ hmambas₁ hnext
  rw [hops₂, hops₁]
  have hfresh : ∀ t ∈ outs, ¬ g.Exists t := by
    rintro t ht ⟨T, hT, rfl⟩
    have hlt := hwiring.tensorsBelow T hT
    have hge := (hnew _ ht).1
    omega
  have hclean : ∀ t, g.Clean t → v.Clean t := by
    rintro t ⟨T, hT, hid, hproduced⟩
    obtain ⟨T', hT', hid', hproduced'⟩ := hkept T hT
    exact ⟨T', hkeep T' hT', hid'.trans hid, hproduced'.trans hproduced⟩
  have hexists : ∀ t, g.Exists t → v.Exists t := by
    rintro t ⟨T, hT, hid⟩
    obtain ⟨T', hT', hid', -⟩ := hkept T hT
    exact ⟨T', hkeep T' hT', hid'.trans hid⟩
  refine ⟨⟨?_, ?_, ?_⟩, hexists, hclean, rfl, fun t ht => ⟨(hnew t ht).2, hfresh t ht⟩,
    hlength, hflags⟩
  · have hout : Wiring v (g.operations ++
        [{ id := g.nextId, inputs := inputs, outputs := outs }]) [] := by
      refine hw.extend rfl (fun t ht => ht) (fun t ht => (nomatch ht)) rfl (fun t ht => ?_)
        fun t ht => .inr fun x hx htx => ?_
      · rcases List.mem_append.mp ht with ht | ht
        · exact hexists t (hexist t ht)
        · exact (hnew t ht).2
      · exact hfresh t ht (hwiring.exist x hx t (List.mem_append_right _ htx))
    exact hout.of_eq rfl rfl
  · -- an old operation reads no new output, and the new one reads old outputs
    intro x hx y hy t htx hty
    simp only at hx hy
    rcases List.mem_append.mp hx with hx | hx
    · rcases List.mem_append.mp hy with hy | hy
      · obtain ⟨w, hwx, hwy, hw⟩ := hunmarked x hx y hy t htx hty
        exact ⟨w, hwx, hwy, hclean w hw⟩
      · rw [List.mem_singleton.mp hy] at hty
        exact absurd (hwiring.exist x hx t (List.mem_append_left _ htx)) (hfresh t hty)
    · rw [List.mem_singleton.mp hx] at htx ⊢
      rcases List.mem_append.mp hy with hy | hy
      · obtain ⟨w, hwx, hwy, hw⟩ := (hreads t htx).2 y hy hty
        exact ⟨w, hwx, hwy, hclean w hw⟩
      · rw [List.mem_singleton.mp hy] at hty
        exact absurd (hexist t htx) (hfresh t hty)
  · simp only
    rw [hmambas₂, hmambas₁, hmambas]

/-! ## What later operations may read -/

variable {g' : Graph} {outputs : List Nat}

theorem Added.safe (h : Added g g' inputs outputs flags) {t : Nat} (ht : g.Safe t) : g'.Safe t := by
  obtain ⟨hexist, hsafe⟩ := ht
  refine ⟨h.exist t hexist, hsafe.imp (h.clean t) fun hnone y hy => ?_⟩
  rw [h.operations] at hy
  rcases List.mem_append.mp hy with hy | hy
  · exact hnone y hy
  · rw [List.mem_singleton.mp hy]
    exact fun hmem => (h.new t hmem).2 hexist

theorem Added.triple (h : Added g g' inputs outputs flags) {query key value : Nat}
    (ht : g.Triple query key value) : g'.Triple query key value := by
  refine ⟨h.clean _ ht.clean, h.exist _ ht.keyExists, h.exist _ ht.valueExists, fun y hy hread => ?_⟩
  rw [h.operations] at hy
  rcases List.mem_append.mp hy with hy | hy
  · exact ht.same y hy hread
  · rw [List.mem_singleton.mp hy] at hread
    rcases hread with hread | hread
    · exact absurd ht.keyExists (h.new _ hread).2
    · exact absurd ht.valueExists (h.new _ hread).2

theorem Added.triples (h : Added g g' inputs outputs flags) {ts : List Nat} (ht : g.Triples ts) :
    g'.Triples ts := by
  induction ts using Triples.induct with
  | case1 query key value rest ih =>
    rw [Triples] at ht ⊢
    exact ⟨h.triple ht.1, ih ht.2⟩
  | case2 ts hts =>
    rw [Triples]
    · trivial
    · exact hts

/-- The outputs of a cache operation are triples. -/
theorem Added.triples_new (h : Added g g' inputs outputs flags)
    (hwiring : Wiring g' g'.operations []) {garbage : Nat → Bool} {bs : List Nat}
    (hflags : flags = bs.flatMap fun b => [false, garbage (2 * b), garbage (2 * b + 1)]) :
    g'.Triples outputs := by
  have hlast : { id := g.nextId, inputs := inputs, outputs := outputs } ∈ g'.operations := by
    rw [h.operations]
    exact List.mem_append_right _ (List.mem_singleton_self _)
  -- another operation that writes one of the outputs is this one
  have hsame : ∀ t ∈ outputs, ∀ y ∈ g'.operations, t ∈ y.outputs → y.outputs = outputs := by
    intro t ht y hy hty
    have hid := hwiring.producer y hy _ hlast t hty ht
    rw [List.inj_on_of_nodup_map hwiring.opIds hy hlast hid]
  have hall : ∀ (bs : List Nat) (ts : List Nat), (∀ t ∈ ts, t ∈ outputs) →
      (∀ i : Nat, (bs.flatMap fun b => [false, garbage (2 * b), garbage (2 * b + 1)])[i]? =
        some false → ∃ t, ts[i]? = some t ∧ g'.Clean t) → ts.length = 3 * bs.length →
      g'.Triples ts := by
    intro bs
    induction bs with
    | nil =>
      intro ts _ _ hlength
      obtain rfl := List.length_eq_zero_iff.mp hlength
      trivial
    | cons b bs ih =>
      intro ts hts hclean hlength
      match ts, hlength with
      | query :: key :: value :: rest, hlength =>
        obtain ⟨t, ht, hquery⟩ := hclean 0 rfl
        obtain rfl := Option.some.inj ht
        refine ⟨⟨hquery, (h.new key (hts key (by simp))).1, (h.new value (hts value (by simp))).1,
          fun y hy hread => ?_⟩, ih rest (fun t ht => hts t (by simp [ht])) (fun i hi => ?_) ?_⟩
        · rcases hread with hread | hread
          · rw [hsame key (hts key (by simp)) y hy hread]
            exact hts query (by simp)
          · rw [hsame value (hts value (by simp)) y hy hread]
            exact hts query (by simp)
        · obtain ⟨t, ht, hct⟩ := hclean (i + 3) (by simpa using hi)
          exact ⟨t, by simpa using ht, hct⟩
        · simp only [List.length_cons] at hlength
          omega
  refine hall bs outputs (fun t ht => ht) (hflags ▸ h.flags) ?_
  have hlength : ∀ bs : List Nat, (bs.flatMap fun b =>
      [false, garbage (2 * b), garbage (2 * b + 1)]).length = 3 * bs.length := by
    intro bs
    induction bs with
    | nil => rfl
    | cons b bs ih =>
      rw [List.flatMap_cons, List.length_append, ih, List.length_cons]
      simp only [List.length_cons, List.length_nil]
      omega
  rw [h.length, hflags, hlength]

/-! ## A layer -/

/-- What is kept while a layer is built: the tensors that later operations may read. -/
structure Grows (g g' : Graph) : Prop where
  sound : g'.Sound
  safe : ∀ t, g.Safe t → g'.Safe t
  triples : ∀ ts, g.Triples ts → g'.Triples ts

theorem Grows.trans {g'' : Graph} (h : Grows g g') (h' : Grows g' g'') : Grows g g'' :=
  ⟨h'.sound, fun t ht => h'.safe t (h.safe t ht), fun ts hts => h'.triples ts (h.triples ts hts)⟩

theorem Added.grows (h : Added g g' inputs outputs flags) : Grows g g' :=
  ⟨h.sound, fun _ => h.safe, fun _ => h.triples⟩

/-- The output of an operation is safe to read. -/
theorem addOperation_one (hg : g.Sound) (hreads : g.Reads inputs) :
    ∃ t, (g.addOperation inputs [false]).1 = [t] ∧ (g.addOperation inputs [false]).2.Safe t := by
  have hadded := addOperation_added hg hreads [false]
  obtain ⟨t, ht⟩ := List.length_eq_one_iff.mp hadded.length
  obtain ⟨t', ht', hclean⟩ := hadded.flags 0 rfl
  rw [ht] at ht'
  obtain rfl := Option.some.inj ht'
  exact ⟨t, ht, hclean.exists, .inl hclean⟩

theorem addOne_grows (hg : g.Sound) (hsafe : ∀ t ∈ inputs, g.Safe t) :
    Grows g (addOne inputs g).2 ∧ (addOne inputs g).2.Safe (addOne inputs g).1 := by
  have hreads := Safe.reads hsafe
  obtain ⟨t, ht, hsafe'⟩ := addOperation_one hg hreads
  refine ⟨(addOperation_added hg hreads [false]).grows, ?_⟩
  unfold addOne
  rw [ht]
  exact hsafe'

theorem addAttentions_grows {ts : List Nat} (hg : g.Sound) (hts : g.Triples ts) :
    Grows g (addAttentions ts g).2 ∧
      ∀ t ∈ (addAttentions ts g).1, (addAttentions ts g).2.Safe t := by
  induction ts, g using addAttentions.induct with
  | case1 query key value rest g outputs g' heq outputs' g'' heq' ih =>
    rw [Triples] at hts
    obtain ⟨htriple, hrest⟩ := hts
    have hadded := addOperation_added hg htriple.reads [false]
    obtain ⟨t, ht, hsafe⟩ := addOperation_one hg htriple.reads
    rw [heq] at hadded ht hsafe
    obtain ⟨hgrows, hall⟩ := ih hadded.sound (hadded.triples hrest)
    rw [addAttentions, heq]
    simp only at ht hsafe ⊢
    refine ⟨hadded.grows.trans hgrows, fun t' ht' => ?_⟩
    rcases List.mem_append.mp ht' with ht' | ht'
    · rw [ht, List.mem_singleton] at ht'
      exact ht' ▸ hgrows.safe t hsafe
    · exact hall t' ht'
  | case2 ts g hts' =>
    rw [addAttentions]
    · exact ⟨⟨hg, fun _ h => h, fun _ h => h⟩, fun t ht => (nomatch ht)⟩
    · exact hts'

theorem forall_safe {ts : List Nat} {t : Nat} (ht : g.Safe t) (hts : ∀ u ∈ ts, g.Safe u) :
    ∀ u ∈ t :: ts, g.Safe u :=
  List.forall_mem_cons.mpr ⟨ht, hts⟩

theorem safe_nil : ∀ u ∈ ([] : List Nat), g.Safe u := fun _ hu => (nomatch hu)

/-- The graph grew, and the tensor that came of it is safe to read. -/
def Gives (g : Graph) (r : Nat × Graph) : Prop :=
  Grows g r.2 ∧ r.2.Safe r.1

theorem addAttention_gives {w : LayerWeights} {garbage : Nat → Bool} {input : Nat} (hg : g.Sound)
    (hw : ∀ t ∈ w.tensors, g.Safe t) (hinput : g.Safe input) :
    Gives g (addAttention w garbage input g) := by
  have hcaches : ∀ t ∈ w.caches.flatMap fun c => [c.1, c.2], g.Safe t :=
    fun t ht => hw t (List.mem_append_right _ ht)
  have hqkvW : g.Safe w.qkvWeight := hw _ (by simp [LayerWeights.tensors])
  have hqkvB : g.Safe w.qkvBias := hw _ (by simp [LayerWeights.tensors])
  have hqkv : Gives g (addOne [input, w.qkvWeight, w.qkvBias] g) :=
    addOne_grows hg (forall_safe hinput (forall_safe hqkvW (forall_safe hqkvB safe_nil)))
  unfold addAttention
  generalize addOne [input, w.qkvWeight, w.qkvBias] g = r₁ at hqkv
  obtain ⟨qkv, g₁⟩ := r₁
  obtain ⟨h₁, hqkv⟩ := hqkv
  have hcache := addOperation_added h₁.sound
    (Safe.reads (forall_safe hqkv fun t ht => h₁.safe t (hcaches t ht)))
    ((List.range w.caches.length).flatMap fun b => [false, garbage (2 * b), garbage (2 * b + 1)])
  simp only at hcache ⊢
  generalize g₁.addOperation (qkv :: w.caches.flatMap fun c => [c.1, c.2])
    ((List.range w.caches.length).flatMap fun b =>
      [false, garbage (2 * b), garbage (2 * b + 1)]) = r₂ at hcache
  obtain ⟨outputs, g₂⟩ := r₂
  obtain ⟨hattend, hattentions⟩ := addAttentions_grows hcache.sound
    (hcache.triples_new hcache.sound.wiring rfl)
  simp only at hattend hattentions ⊢
  obtain ⟨hconcat, hout⟩ := addOne_grows hattend.sound hattentions
  exact ⟨((h₁.trans hcache.grows).trans hattend).trans hconcat, hout⟩

theorem addProjection_gives {w : LayerWeights} {input concat : Nat} (hg : g.Sound)
    (hw : ∀ t ∈ w.tensors, g.Safe t) (hinput : g.Safe input) (hconcat : g.Safe concat) :
    Gives g (addProjection w input concat g) := by
  have hweight : ∀ t ∈ [w.projWeight, w.projBias, w.lnWeight, w.lnBias], g.Safe t :=
    fun t ht => hw t (by simp only [LayerWeights.tensors, List.mem_append, List.mem_cons] at ht ⊢; tauto)
  simp only [List.forall_mem_cons] at hweight
  obtain ⟨hprojW, hprojB, hlnW, hlnB, -⟩ := hweight
  have hproj : Gives g (addOne [concat, w.projWeight, w.projBias] g) :=
    addOne_grows hg (forall_safe hconcat (forall_safe hprojW (forall_safe hprojB safe_nil)))
  unfold addProjection
  generalize addOne [concat, w.projWeight, w.projBias] g = r at hproj
  obtain ⟨proj, g₁⟩ := r
  obtain ⟨h₁, hproj⟩ := hproj
  obtain ⟨hln, hout⟩ := addOne_grows h₁.sound (forall_safe (h₁.safe _ hinput) (forall_safe hproj
    (forall_safe (h₁.safe _ hlnW) (forall_safe (h₁.safe _ hlnB) safe_nil))))
  exact ⟨h₁.trans hln, hout⟩

theorem addFeedForward_gives {w : LayerWeights} {ln : Nat} (hg : g.Sound)
    (hw : ∀ t ∈ w.tensors, g.Safe t) (hln : g.Safe ln) : Gives g (addFeedForward w ln g) := by
  have hweight : ∀ t ∈ [w.ffn1Weight, w.ffn1Bias, w.ffn2Weight, w.ffn2Bias, w.ffnLnWeight,
      w.ffnLnBias], g.Safe t :=
    fun t ht => hw t (by simp only [LayerWeights.tensors, List.mem_append, List.mem_cons] at ht ⊢; tauto)
  simp only [List.forall_mem_cons] at hweight
  obtain ⟨hffn1W, hffn1B, hffn2W, hffn2B, hlnW, hlnB, -⟩ := hweight
  have hffn1 : Gives g (addOne [ln, w.ffn1Weight] g) :=
    addOne_grows hg (forall_safe hln (forall_safe hffn1W safe_nil))
  unfold addFeedForward
  generalize addOne [ln, w.ffn1Weight] g = r₁ at hffn1
  obtain ⟨ffn1, g₁⟩ := r₁
  obtain ⟨h₁, hffn1⟩ := hffn1
  have hact : Gives g₁ (addOne [ffn1, w.ffn1Bias] g₁) :=
    addOne_grows h₁.sound (forall_safe hffn1 (forall_safe (h₁.safe _ hffn1B) safe_nil))
  simp only
  generalize addOne [ffn1, w.ffn1Bias] g₁ = r₂ at hact
  obtain ⟨act, g₂⟩ := r₂
  obtain ⟨hact, hactOut⟩ := hact
  have h₂ := h₁.trans hact
  have hffn2 : Gives g₂ (addOne [act, w.ffn2Weight, w.ffn2Bias] g₂) :=
    addOne_grows h₂.sound (forall_safe hactOut
      (forall_safe (h₂.safe _ hffn2W) (forall_safe (h₂.safe _ hffn2B) safe_nil)))
  simp only
  generalize addOne [act, w.ffn2Weight, w.ffn2Bias] g₂ = r₃ at hffn2
  obtain ⟨ffn2, g₃⟩ := r₃
  obtain ⟨hffn2, hffn2Out⟩ := hffn2
  have h₃ := h₂.trans hffn2
  obtain ⟨hlast, hout⟩ := addOne_grows h₃.sound (forall_safe (h₃.safe _ hln)
    (forall_safe hffn2Out (forall_safe (h₃.safe _ hlnW) (forall_safe (h₃.safe _ hlnB) safe_nil))))
  exact ⟨h₃.trans hlast, hout⟩

theorem addLayer_gives {w : LayerWeights} {garbage : Nat → Bool} {input : Nat} (hg : g.Sound)
    (hw : ∀ t ∈ w.tensors, g.Safe t) (hinput : g.Safe input) :
    Gives g (addLayer w garbage input g) := by
  have hattention : Gives g (addAttention w garbage input g) := addAttention_gives hg hw hinput
  unfold addLayer
  generalize addAttention w garbage input g = r₁ at hattention
  obtain ⟨concat, g₁⟩ := r₁
  obtain ⟨h₁, hconcat⟩ := hattention
  have hprojection := addProjection_gives h₁.sound (fun t ht => h₁.safe t (hw t ht))
    (h₁.safe _ hinput) hconcat
  simp only at hprojection ⊢
  generalize addProjection w input concat g₁ = r₂ at hprojection
  obtain ⟨ln, g₂⟩ := r₂
  obtain ⟨hprojection, hln⟩ := hprojection
  have h₂ := h₁.trans hprojection
  obtain ⟨hfeed, hout⟩ := addFeedForward_gives h₂.sound (fun t ht => h₂.safe t (hw t ht)) hln
  exact ⟨h₂.trans hfeed, hout⟩

/-! ## The whole graph -/

theorem addLayers_sound {garbage : Nat → Nat → Bool} {layers : List LayerWeights} {input : Nat}
    (hg : g.Sound) (hlayers : ∀ w ∈ layers, ∀ t ∈ w.tensors, g.Safe t) (hinput : g.Safe input) :
    (addLayers garbage layers input g).Sound := by
  induction layers generalizing g input with
  | nil => exact hg
  | cons w rest ih =>
    obtain ⟨hw, hrest⟩ := List.forall_mem_cons.mp hlayers
    have hlayer : Gives g (addLayer w (garbage rest.length) input g) := addLayer_gives hg hw hinput
    rw [addLayers]
    generalize addLayer w (garbage rest.length) input g = r at hlayer
    obtain ⟨output, g'⟩ := r
    obtain ⟨hgrows, hout⟩ := hlayer
    exact ih hgrows.sound (fun w hw t ht => hgrows.safe t (hrest w hw t ht)) hout

/-- At first there are `sources` tensors, and no operation. -/
theorem startLanguage_sound (first sources : Nat) : (startLanguage first sources).Sound ∧
    ∀ t, first ≤ t → t < first + sources → (startLanguage first sources).Safe t := by
  have hstart : ∀ n, Wiring (startLanguage first n) [] [] ∧
      (startLanguage first n).operations = [] ∧ (startLanguage first n).mambas = [] ∧
      (startLanguage first n).nextId = first + n ∧
      ∀ t, first ≤ t → t < first + n → (startLanguage first n).Exists t := by
    intro n
    induction n with
    | zero => exact ⟨wiring_empty first, rfl, rfl, rfl, fun t hle hlt => absurd hlt (by omega)⟩
    | succ n ih =>
      obtain ⟨hw, hops, hmambas, hnext, hexist⟩ := ih
      have hsucc : startLanguage first (n + 1) =
          ((startLanguage first n).newTensor "" [] 0 true).2 := by
        simp only [startLanguage, List.range_succ, List.foldl_append, List.foldl_cons, List.foldl_nil]
      rw [hsucc]
      refine ⟨hw.newTensor _ _ _ _, hops, hmambas, congrArg (· + 1) hnext, fun t hle hlt => ?_⟩
      rcases Nat.lt_succ_iff_lt_or_eq.mp hlt with hlt | rfl
      · obtain ⟨T, hT, hid⟩ := hexist t hle hlt
        exact ⟨T, List.mem_append_left _ hT, hid⟩
      · exact ⟨_, List.mem_append_right _ (List.mem_singleton_self _), hnext⟩
  obtain ⟨hw, hops, hmambas, -, hexist⟩ := hstart sources
  refine ⟨⟨?_, ?_, hmambas⟩, fun t hle hlt => ⟨hexist t hle hlt, .inr ?_⟩⟩
  · rw [hops]
    exact hw
  · unfold Unmarked
    rw [hops]
    exact fun x hx => (nomatch hx)
  · rw [hops]
    exact fun y hy => (nomatch hy)

/-- The graph of a language model whose layers name tensors that exist. -/
theorem buildLanguage_sound {first sources : Nat} {layers : List LayerWeights}
    {garbage : Nat → Nat → Bool} (hinput : 0 < sources)
    (hlayers : ∀ w ∈ layers, ∀ t ∈ w.tensors, first ≤ t ∧ t < first + sources) :
    (buildLanguage first sources layers garbage).Sound := by
  obtain ⟨hsound, hsafe⟩ := startLanguage_sound first sources
  exact addLayers_sound hsound
    (fun w hw t ht => hsafe t (hlayers w hw t ht).1 (hlayers w hw t ht).2)
    (hsafe first le_rfl (by omega))

end Graph

end OnnxSim
