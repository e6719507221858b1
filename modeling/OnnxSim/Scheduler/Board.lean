import OnnxSim.Lib.Loops
import OnnxSim.Model.Run

/-!
# What a scheduler does to its models

The schedulers differ in when they take a layer and how they hand out its tiles. What they do to the
models is the same: a layer is taken and its tiles are moved out, a layer that is active is taken
and nothing is moved, a layer finishes, and a model leaves the queue. A `Board` shows the models, the
active layers and the two logs, and `Board.Move` is one of these.

What is known of each operation follows (`Board.Tracked`): whether it has been taken, whether its tiles
have entered, and whether it has finished. So when the tiles of an operation enter, the operations
whose outputs it reads have finished (`Board.Inv.producers_finished`).
-/

namespace OnnxSim

namespace Model

def ids (m : Model) : List Nat := m.operationMap.map (·.id)

/-- The identifiers, the inputs and the outputs of the operations. -/
def graph (m : Model) : List (Nat × List Nat × List Nat) := m.operationMap.map wires

theorem graph_ids (m : Model) : m.graph.map (·.1) = m.ids := by
  unfold graph ids
  rw [List.map_map]
  rfl

theorem mem_ids {m : Model} {l : Nat} : l ∈ m.ids ↔ ∃ x ∈ m.operationMap, x.id = l := List.mem_map

/-- An operation is a child of its own outputs only where it reads one. -/
def NoSelf (m : Model) : Prop :=
  ∀ x ∈ m.operationMap, x.id ∈ m.childNodes x → ∃ t ∈ x.inputs, t ∈ x.outputs

/-- The tiles of operation `id` have been moved out. -/
def Unloaded (id : Nat) (m m' : Model) : Prop :=
  m'.tensorMap = m.tensorMap ∧ m'.executableLayer = m.executableLayer ∧
    ∃ f : Operation → Operation, m'.operationMap = m.operationMap.map f ∧
      ∀ o, wires (f o) = wires o ∧ (f o).finish = o.finish ∧
        (f o).tiles = if o.id = id then [] else o.tiles

variable {init : Nat → Bool} {returned finished : List Nat} {m m' : Model} {id : Nat}

theorem unloaded_moveTiles (m : Model) (id : Nat) : Unloaded id m (m.moveTiles id) := by
  refine ⟨rfl, rfl, _, rfl, fun o => ?_⟩
  split <;> exact ⟨rfl, rfl, rfl⟩

theorem unloaded_clearTiles (m : Model) (id : Nat) : Unloaded id m (m.clearTiles id) := by
  refine ⟨rfl, rfl, _, rfl, fun o => ?_⟩
  split <;> exact ⟨rfl, rfl, rfl⟩

theorem Unloaded.sameGraph (h : Unloaded id m m') : SameGraph m m' := by
  obtain ⟨htensors, -, f, hops, hf⟩ := h
  refine ⟨?_, fun t => by rw [htensors]⟩
  rw [hops, List.map_map]
  exact List.map_congr_left fun o _ => (hf o).1

theorem Sound.unloaded (h : m.Sound init returned finished) (hm : Unloaded id m m') :
    m'.Sound init returned finished := by
  have hsame := hm.sameGraph
  obtain ⟨htensors, hexec, f, hops, hf⟩ := hm
  have hwires : ∀ o, (f o).id = o.id ∧ (f o).inputs = o.inputs ∧ (f o).outputs = o.outputs :=
    fun o => wires_eq (hf o).1
  refine ⟨h.wired.same hsame, fun t => ?_, fun x hx => ?_, fun l hl => ?_, h.taken⟩
  · rw [htensors, h.produced t]
    refine or_congr Iff.rfl ⟨fun ⟨x, hx, hfinished, ht⟩ => ?_, fun ⟨x, hx, hfinished, ht⟩ => ?_⟩
    · obtain ⟨hid, -, hout⟩ := hwires x
      exact ⟨f x, hops ▸ List.mem_map_of_mem hx, hid.symm ▸ hfinished, hout.symm ▸ ht⟩
    · rw [hops] at hx
      obtain ⟨y, hy, rfl⟩ := List.mem_map.mp hx
      obtain ⟨hid, -, hout⟩ := hwires y
      exact ⟨y, hy, hid ▸ hfinished, hout ▸ ht⟩
  · rw [hops] at hx
    obtain ⟨y, hy, rfl⟩ := List.mem_map.mp hx
    rw [(hf y).2.1, (hwires y).1]
    exact h.finish y hy
  · rw [hexec] at hl
    obtain ⟨x, hx, rfl, hready⟩ := h.ready l hl
    obtain ⟨hid, hin, -⟩ := hwires x
    refine ⟨f x, hops ▸ List.mem_map_of_mem hx, hid, ?_⟩
    unfold checkExecutable
    rw [hin, htensors]
    exact hready

theorem SameGraph.noSelf (h : SameGraph m m') (hm : m.NoSelf) : m'.NoSelf := by
  intro x hx hchild
  obtain ⟨y, hy, hwires⟩ := h.exists_wires hx
  obtain ⟨hid, hin, hout⟩ := wires_eq hwires
  rw [← hin, ← hout]
  refine hm y hy ?_
  obtain ⟨t, ht, hc⟩ := List.mem_flatMap.mp hchild
  refine List.mem_flatMap.mpr ⟨t, hout.symm ▸ ht, ?_⟩
  rw [← h.2, hid]
  exact hc

/-- An operation that has been taken and has not finished does not come back where no other is a
child of its own outputs. -/
theorem NoSelf.not_selfChild (hm : m.NoSelf) (h : m.Sound init returned finished)
    (hreturned : id ∈ returned) (hrunning : id ∉ finished) : ¬ m.SelfChild id := by
  rintro ⟨x, hx, hid, hchild⟩
  obtain ⟨t, htin, htout⟩ := hm x hx (hid ▸ hchild)
  exact h.not_reads_own hreturned hrunning hx hid htin htout

/-- What finishes keeps its tiles. -/
theorem setLayerFinish_tiles (h : m.setLayerFinish id = some m') {x : Operation}
    (hx : x ∈ m'.operationMap) : ∃ y ∈ m.operationMap, y.id = x.id ∧ y.tiles = x.tiles := by
  obtain ⟨op, -, new, rfl, -⟩ := setLayerFinish_eq_some h
  obtain ⟨y, hy, rfl⟩ := List.mem_map.mp hx
  refine ⟨y, hy, ?_⟩
  split <;> exact ⟨rfl, rfl⟩

end Model

/-- The models that a scheduler has been given, the layers that are active, and its logs. -/
structure Board where
  models : List Model
  active : Nat → Bool
  entered : Nat → List Tile
  retired : List Nat

namespace Board

/-- What a scheduler does to its models. The order in which a board shows them is arbitrary. -/
inductive Move (b : Board) : Board → Prop
  | leave {models : List Model} (hmodels : models.Perm b.models) :
      Move b { b with models := models }
  | take {models rest : List Model} {m m' : Model} {op : Operation}
      (hmodels : b.models.Perm (m :: rest)) (htake : m.getExecutableTile = some (op, m'))
      (hactive : b.active op.id) (hmodels' : models.Perm (m' :: rest)) :
      Move b { b with models := models }
  | start {models rest : List Model} {m m' m'' : Model} {op : Operation} {active : Nat → Bool}
      (hmodels : b.models.Perm (m :: rest)) (htake : m.getExecutableTile = some (op, m'))
      (hidle : b.active op.id = false) (hunload : Model.Unloaded op.id m' m'')
      (hmodels' : models.Perm (m'' :: rest)) (hactive : ∀ l, active l ↔ l = op.id ∨ b.active l) :
      Move b { b with
        models := models
        active := active
        entered := Function.update b.entered op.id (b.entered op.id ++ op.tiles) }
  | finish {models : List Model} {l : Nat} {active : Nat → Bool} (hactive : b.active l)
      (hnew : l ∉ b.retired)
      (htold : List.Forall₂ (fun m m' => m' = m ∨ m.setLayerFinish l = some m') b.models models)
      (hactive' : ∀ k, active k ↔ k ≠ l ∧ b.active k) :
      Move b { b with models := models, active := active, retired := b.retired ++ [l] }

/-- What holds of a model of which `returned` have been taken and `finished` have finished. `tiles`
are the tiles that each operation had at first. -/
structure Tracked (tiles : Nat → List Tile) (b : Board) (m : Model) (init : Nat → Bool)
    (returned finished : List Nat) : Prop where
  sound : m.Sound init returned finished
  once : m.NoSelf → m.Once returned
  retired : ∀ l ∈ finished, l ∈ b.retired
  taken : ∀ x ∈ m.operationMap, x.id ∈ returned ↔ b.active x.id ∨ x.id ∈ b.retired
  before : ∀ x ∈ m.operationMap, x.id ∉ returned → b.entered x.id = [] ∧ x.tiles = tiles x.id
  after : ∀ x ∈ m.operationMap, x.id ∈ returned → b.entered x.id = tiles x.id ∧ x.tiles = []

/-- The tiles that the operations of the scheduled models had at first. -/
def tilesOf (scheduled : List Model) (l : Nat) : List Tile :=
  match (scheduled.flatMap (·.operationMap)).find? (·.id == l) with
  | some x => x.tiles
  | none => []

structure Inv (scheduled : List Model) (b : Board) : Prop where
  graphs : (b.models.map Model.graph).Perm (scheduled.map Model.graph)
  ids : (scheduled.flatMap Model.ids).Nodup
  known : ∀ l, b.active l ∨ l ∈ b.retired ∨ b.entered l ≠ [] → l ∈ scheduled.flatMap Model.ids
  selfs : (∀ m ∈ scheduled, m.NoSelf) → ∀ m ∈ b.models, m.NoSelf
  tracked : ∀ m ∈ b.models, ∃ init returned finished,
    Tracked (tilesOf scheduled) b m init returned finished

variable {scheduled : List Model} {b b' : Board} {m m' : Model} {tiles : Nat → List Tile}
  {init : Nat → Bool} {returned finished : List Nat}

/-- Only what the board shows of the model's own operations matters. -/
theorem Tracked.congr (h : Tracked tiles b m init returned finished)
    (hretired : ∀ l ∈ m.ids, l ∈ b'.retired ↔ l ∈ b.retired)
    (hactive : ∀ l ∈ m.ids, b'.active l ↔ b.active l)
    (hentered : ∀ l ∈ m.ids, b'.entered l = b.entered l) :
    Tracked tiles b' m init returned finished := by
  have hmem : ∀ {x : Operation}, x ∈ m.operationMap → x.id ∈ m.ids :=
    fun hx => List.mem_map_of_mem hx
  refine ⟨h.sound, h.once, fun l hl => ?_, fun x hx => ?_, fun x hx hnot => ?_, fun x hx hret => ?_⟩
  · obtain ⟨x, hx, rfl, -⟩ := h.sound.ready l (List.mem_append_left _ (h.sound.taken l hl))
    exact (hretired _ (hmem hx)).mpr (h.retired _ hl)
  · rw [h.taken x hx, hactive _ (hmem hx), hretired _ (hmem hx)]
  · rw [hentered _ (hmem hx)]
    exact h.before x hx hnot
  · rw [hentered _ (hmem hx)]
    exact h.after x hx hret

/-- The operation that is taken: it is the model's, and nothing else changes. -/
theorem taken_mem {op : Operation} (h : m.getExecutableTile = some (op, m')) :
    op ∈ m.operationMap ∧ m'.operationMap = m.operationMap ∧ op.id ∈ m.executableLayer := by
  obtain ⟨rest, hexec, hmem, rfl⟩ := Model.getExecutableTile_eq_some h
  exact ⟨hmem, rfl, by simp [hexec]⟩

/-- An active layer is taken again: nothing else happens. -/
theorem Tracked.take {op : Operation} (h : Tracked tiles b m init returned finished)
    (htake : m.getExecutableTile = some (op, m')) (hactive : b.active op.id) :
    Tracked tiles b m' init (returned ++ [op.id]) finished := by
  obtain ⟨hop, hops, -⟩ := taken_mem htake
  have hsame := Model.getExecutableTile_sameGraph htake
  have hreturned := (h.taken op hop).mpr (.inl hactive)
  have hiff : ∀ l, l ∈ returned ++ [op.id] ↔ l ∈ returned := by
    intro l
    constructor
    · intro hl
      rcases List.mem_append.mp hl with hl | hl
      · exact hl
      · exact List.mem_singleton.mp hl ▸ hreturned
    · exact List.mem_append_left _
  refine ⟨h.sound.getExecutableTile htake, fun hself => ?_, h.retired, ?_, ?_, ?_⟩
  · exact (Model.Once.getExecutableTile htake).mpr (h.once (hsame.symm.noSelf hself))
  · rw [hops]
    exact fun x hx => (hiff x.id).trans (h.taken x hx)
  · rw [hops]
    exact fun x hx hnot => h.before x hx fun hmem => hnot ((hiff _).mpr hmem)
  · rw [hops]
    exact fun x hx hmem => h.after x hx ((hiff _).mp hmem)

/-- A layer starts: its tiles enter, if it starts for the first time. -/
theorem Tracked.start {op : Operation} {m'' : Model} {active : Nat → Bool}
    (h : Tracked tiles b m init returned finished)
    (htake : m.getExecutableTile = some (op, m')) (hunload : Model.Unloaded op.id m' m'')
    (hactive : ∀ l, active l ↔ l = op.id ∨ b.active l) :
    Tracked tiles { b with
        active := active
        entered := Function.update b.entered op.id (b.entered op.id ++ op.tiles) } m'' init
      (returned ++ [op.id]) finished := by
  obtain ⟨hop, hops, -⟩ := taken_mem htake
  have hsame := (Model.getExecutableTile_sameGraph htake).trans hunload.sameGraph
  have hsound := (h.sound.getExecutableTile htake).unloaded hunload
  have hexec := hunload.2.1
  obtain ⟨-, -, f, hops'', hf⟩ := hunload
  -- each operation of the model is one of the old ones, without its tiles if it has been taken
  have hmem : ∀ x ∈ m''.operationMap, ∃ y ∈ m.operationMap, x.id = y.id ∧
      x.tiles = if y.id = op.id then [] else y.tiles := by
    intro x hx
    rw [hops'', hops] at hx
    obtain ⟨y, hy, rfl⟩ := List.mem_map.mp hx
    exact ⟨y, hy, (Model.wires_eq (hf y).1).1, (hf y).2.2⟩
  have hiff : ∀ l, l ∈ returned ++ [op.id] ↔ l = op.id ∨ l ∈ returned := by simp [or_comm]
  refine ⟨hsound, fun hself => ?_, h.retired, fun x hx => ?_, fun x hx hnot => ?_,
    fun x hx hreturned => ?_⟩
  · have honce := (Model.Once.getExecutableTile htake).mpr (h.once (hsame.symm.noSelf hself))
    unfold Model.Once at honce ⊢
    rwa [hexec]
  · obtain ⟨y, hy, hid, -⟩ := hmem x hx
    rw [hid, hiff, h.taken y hy, hactive, or_assoc]
  · obtain ⟨y, hy, hid, htiles⟩ := hmem x hx
    rw [hid, hiff, not_or] at hnot
    simp only [hid, Function.update_of_ne hnot.1, htiles, if_neg hnot.1]
    exact h.before y hy hnot.2
  · obtain ⟨y, hy, hid, htiles⟩ := hmem x hx
    simp only [hid, htiles]
    by_cases hy' : y.id = op.id
    · obtain rfl := h.sound.wired.eq_of_id hy hop hy'
      rw [Function.update_self, if_pos rfl]
      by_cases hagain : y.id ∈ returned
      · -- an operation that comes back has no tiles left
        obtain ⟨hentered, hempty⟩ := h.after y hy hagain
        exact ⟨by rw [hempty, List.append_nil, hentered], rfl⟩
      · obtain ⟨hentered, hfull⟩ := h.before y hy hagain
        exact ⟨by rw [hentered, hfull, List.nil_append], rfl⟩
    · rw [Function.update_of_ne hy', if_neg hy']
      rw [hid, hiff] at hreturned
      exact h.after y hy (hreturned.resolve_left hy')

/-- The layer `l` has finished, in another model or in this one. -/
theorem Tracked.finish {l : Nat} {active : Nat → Bool}
    (h : Tracked tiles b m init returned finished) (hactive : b.active l) (hnew : l ∉ b.retired)
    (hactive' : ∀ k, active k ↔ k ≠ l ∧ b.active k)
    (htold : m' = m ∨ m.setLayerFinish l = some m') : ∃ finished', Tracked tiles { b with
      active := active, retired := b.retired ++ [l] } m' init returned finished' := by
  have htaken : ∀ x ∈ m.operationMap,
      x.id ∈ returned ↔ active x.id ∨ x.id ∈ b.retired ++ [l] := by
    intro x hx
    rw [h.taken x hx, hactive', List.mem_append, List.mem_singleton]
    by_cases hx : x.id = l
    · simp [hx, hactive]
    · simp [hx]
  rcases htold with rfl | htold
  · exact ⟨finished, h.sound, h.once, fun k hk => List.mem_append_left _ (h.retired k hk), htaken,
      h.before, h.after⟩
  · have hsame := Model.setLayerFinish_sameGraph htold
    obtain ⟨op, hop, -⟩ := Model.setLayerFinish_eq_some htold
    obtain ⟨hopmem, rfl⟩ := Model.findOperation_eq_some hop
    have hreturned := (h.taken op hopmem).mpr (.inl hactive)
    have hrunning : op.id ∉ finished := fun hmem => hnew (h.retired _ hmem)
    refine ⟨finished ++ [op.id], h.sound.setLayerFinish hreturned htold, fun hself => ?_,
      fun k hk => ?_, fun x hx => ?_, fun x hx hnot => ?_, fun x hx hret => ?_⟩
    · have hself' := hsame.symm.noSelf hself
      exact (h.sound.once_iff (h.once hself') hreturned hrunning htold).mpr
        (hself'.not_selfChild h.sound hreturned hrunning)
    · rcases List.mem_append.mp hk with hk | hk
      · exact List.mem_append_left _ (h.retired k hk)
      · exact List.mem_append_right _ hk
    · obtain ⟨y, hy, hid, -⟩ := Model.setLayerFinish_tiles htold hx
      rw [← hid]
      exact htaken y hy
    · obtain ⟨y, hy, hid, htiles⟩ := Model.setLayerFinish_tiles htold hx
      rw [← hid, ← htiles]
      exact h.before y hy (hid ▸ hnot)
    · obtain ⟨y, hy, hid, htiles⟩ := Model.setLayerFinish_tiles htold hx
      rw [← hid, ← htiles]
      exact h.after y hy (hid ▸ hret)

/-! ## The invariant -/

theorem ids_perm {xs ys : List Model} (h : (xs.map Model.graph).Perm (ys.map Model.graph)) :
    (xs.flatMap Model.ids).Perm (ys.flatMap Model.ids) := by
  have hflat : ∀ zs : List Model,
      zs.flatMap Model.ids = (zs.map Model.graph).flatMap (·.map (·.1)) := by
    intro zs
    rw [List.flatMap_map]
    exact List.flatMap_congr fun m _ => m.graph_ids.symm
  rw [hflat xs, hflat ys]
  exact h.flatMap_right _

/-- One of the models becomes `m'`, with the same graph. -/
theorem graphs_replace {models rest : List Model} (h : b.models.Perm (m :: rest))
    (hsame : Model.SameGraph m m') (h' : models.Perm (m' :: rest)) :
    (models.map Model.graph).Perm (b.models.map Model.graph) := by
  have hgraph : m'.graph = m.graph := hsame.1
  refine (h'.map _).trans ?_
  rw [List.map_cons, hgraph]
  exact (h.map Model.graph).symm

/-- No other model has an operation of `m`. -/
theorem Inv.disjoint {rest : List Model} (h : Inv scheduled b) (hb : b.models.Perm (m :: rest))
    {m₂ : Model} (hm₂ : m₂ ∈ rest) {l : Nat} (hl : l ∈ m₂.ids) : l ∉ m.ids := by
  intro hlm
  have hnodup := (ids_perm h.graphs).nodup_iff.mpr h.ids
  have hperm := (hb.flatMap_right Model.ids).nodup_iff.mp hnodup
  rw [List.flatMap_cons, List.nodup_append] at hperm
  exact hperm.2.2 l hlm l (List.mem_flatMap.mpr ⟨m₂, hm₂, hl⟩) rfl

theorem Inv.ids_mem (h : Inv scheduled b) (hm : m ∈ b.models) {l : Nat} (hl : l ∈ m.ids) :
    l ∈ scheduled.flatMap Model.ids :=
  (ids_perm h.graphs).mem_iff.mp (List.mem_flatMap.mpr ⟨m, hm, hl⟩)

theorem Inv.selfs_replace {models rest : List Model} (h : Inv scheduled b)
    (hb : b.models.Perm (m :: rest)) (hsame : Model.SameGraph m m') (hb' : models.Perm (m' :: rest))
    (hselfs : ∀ m ∈ scheduled, m.NoSelf) : ∀ m ∈ models, m.NoSelf := by
  intro m₂ hm₂
  rcases List.mem_cons.mp (hb'.subset hm₂) with rfl | hrest
  · exact hsame.noSelf (h.selfs hselfs m (hb.symm.subset List.mem_cons_self))
  · exact h.selfs hselfs m₂ (hb.symm.subset (List.mem_cons_of_mem _ hrest))

theorem graphs_told {l : Nat} {xs ys : List Model}
    (h : List.Forall₂ (fun m m' => m' = m ∨ m.setLayerFinish l = some m') xs ys) :
    ys.map Model.graph = xs.map Model.graph := by
  induction h with
  | nil => rfl
  | cons hm _ ih =>
    rw [List.map_cons, List.map_cons, ih]
    rcases hm with rfl | hm
    · rfl
    · exact congrArg (· :: _) (Model.setLayerFinish_sameGraph hm).1

theorem Inv.move (h : Inv scheduled b) (hmove : Move b b') : Inv scheduled b' := by
  cases hmove with
  | leave hmodels =>
    exact ⟨(hmodels.map _).trans h.graphs, h.ids, h.known,
      fun hselfs m hm => h.selfs hselfs m (hmodels.subset hm), fun m hm => by
      obtain ⟨init, returned, finished, htracked⟩ := h.tracked m (hmodels.subset hm)
      exact ⟨init, returned, finished, htracked.congr (fun _ _ => Iff.rfl) (fun _ _ => Iff.rfl)
        fun _ _ => rfl⟩⟩
  | @take models rest m m' op hmodels htake hactive hmodels' =>
    have hsame := Model.getExecutableTile_sameGraph htake
    refine ⟨(graphs_replace hmodels hsame hmodels').trans h.graphs, h.ids, h.known,
      h.selfs_replace hmodels hsame hmodels', fun m₂ hm₂ => ?_⟩
    rcases List.mem_cons.mp (hmodels'.subset hm₂) with rfl | hrest
    · obtain ⟨init, returned, finished, htracked⟩ :=
        h.tracked m (hmodels.symm.subset List.mem_cons_self)
      exact ⟨init, _, finished, (htracked.take htake hactive).congr (fun _ _ => Iff.rfl)
        (fun _ _ => Iff.rfl) fun _ _ => rfl⟩
    · obtain ⟨init, returned, finished, htracked⟩ :=
        h.tracked m₂ (hmodels.symm.subset (List.mem_cons_of_mem _ hrest))
      exact ⟨init, returned, finished, htracked.congr (fun _ _ => Iff.rfl) (fun _ _ => Iff.rfl)
        fun _ _ => rfl⟩
  | @start models rest m m' m'' op active hmodels htake hidle hunload hmodels' hactive =>
    have hsame := (Model.getExecutableTile_sameGraph htake).trans hunload.sameGraph
    obtain ⟨hop, -, -⟩ := taken_mem htake
    have hopid : op.id ∈ m.ids := List.mem_map_of_mem hop
    have hm := hmodels.symm.subset List.mem_cons_self
    refine ⟨(graphs_replace hmodels hsame hmodels').trans h.graphs, h.ids, fun l hl => ?_,
      h.selfs_replace hmodels hsame hmodels', fun m₂ hm₂ => ?_⟩
    · by_cases hlop : l = op.id
      · exact hlop ▸ h.ids_mem hm hopid
      · refine h.known l ?_
        simp only [hactive, hlop, false_or, Function.update_of_ne hlop, ne_eq] at hl
        exact hl
    rcases List.mem_cons.mp (hmodels'.subset hm₂) with rfl | hrest
    · obtain ⟨init, returned, finished, htracked⟩ := h.tracked m hm
      exact ⟨init, _, finished, (htracked.start htake hunload hactive).congr (fun _ _ => Iff.rfl)
        (fun _ _ => Iff.rfl) fun _ _ => rfl⟩
    · obtain ⟨init, returned, finished, htracked⟩ :=
        h.tracked m₂ (hmodels.symm.subset (List.mem_cons_of_mem _ hrest))
      have hother : ∀ l ∈ m₂.ids, l ≠ op.id := by
        rintro l hl rfl
        exact h.disjoint hmodels hrest hl hopid
      refine ⟨init, returned, finished, htracked.congr (fun _ _ => Iff.rfl) (fun l hl => ?_)
        fun l hl => Function.update_of_ne (hother l hl) _ _⟩
      rw [hactive, or_iff_right (hother l hl)]
  | @finish models l active hactive hnew htold hactive' =>
    refine ⟨graphs_told htold ▸ h.graphs, h.ids, fun k hk => ?_, fun hselfs m' hm' => ?_,
      fun m' hm' => ?_⟩
    · refine h.known k ?_
      rcases hk with hk | hk | hk
      · exact .inl ((hactive' k).mp hk).2
      · rcases List.mem_append.mp hk with hk | hk
        · exact .inr (.inl hk)
        · exact .inl (List.mem_singleton.mp hk ▸ hactive)
      · exact .inr (.inr hk)
    · obtain ⟨m, hm, rfl | hm'⟩ := Loops.exists_of_forall₂_right htold hm'
      · exact h.selfs hselfs _ hm
      · exact (Model.setLayerFinish_sameGraph hm').noSelf (h.selfs hselfs m hm)
    · obtain ⟨m, hm, hm'⟩ := Loops.exists_of_forall₂_right htold hm'
      obtain ⟨init, returned, finished, htracked⟩ := h.tracked m hm
      obtain ⟨finished', htracked'⟩ := htracked.finish hactive hnew hactive' hm'
      exact ⟨init, returned, finished', htracked'.congr (fun _ _ => Iff.rfl)
        (fun _ _ => Iff.rfl) fun _ _ => rfl⟩

/-- Only which layers are active matters. -/
theorem Inv.congr {b' : Board} (h : Inv scheduled b) (hmodels : b'.models = b.models)
    (hentered : b'.entered = b.entered) (hretired : b'.retired = b.retired)
    (hactive : ∀ l, b'.active l ↔ b.active l) : Inv scheduled b' := by
  obtain ⟨models, active, entered, retired⟩ := b'
  obtain rfl : models = b.models := hmodels
  obtain rfl : entered = b.entered := hentered
  obtain rfl : retired = b.retired := hretired
  refine ⟨h.graphs, h.ids, fun l hl => h.known l (by rwa [← hactive]), h.selfs, fun m hm => ?_⟩
  obtain ⟨init, returned, finished, htracked⟩ := h.tracked m hm
  exact ⟨init, returned, finished,
    htracked.congr (fun _ _ => Iff.rfl) (fun l _ => hactive l) fun _ _ => rfl⟩

/-! ## Scheduling a model -/

/-- Where the identifiers are distinct, the tiles of an operation are found by its identifier. -/
theorem tilesOf_eq (hids : (scheduled.flatMap Model.ids).Nodup) (hm : m ∈ scheduled) {x : Operation}
    (hx : x ∈ m.operationMap) : tilesOf scheduled x.id = x.tiles := by
  have hmem : x ∈ scheduled.flatMap (·.operationMap) := List.mem_flatMap.mpr ⟨m, hm, hx⟩
  have hnodup : ((scheduled.flatMap (·.operationMap)).map (·.id)).Nodup := by
    rw [List.map_flatMap]
    exact hids
  obtain ⟨y, hy⟩ : ∃ y, (scheduled.flatMap (·.operationMap)).find? (·.id == x.id) = some y := by
    rw [← Option.isSome_iff_exists, List.find?_isSome]
    exact ⟨x, hmem, by simp⟩
  have hid : y.id = x.id := by simpa using List.find?_some hy
  unfold tilesOf
  rw [hy]
  simp only
  rw [List.inj_on_of_nodup_map hnodup (List.mem_of_find?_eq_some hy) hmem hid]

/-- A model that is scheduled later does not change the tiles of the operations before it. -/
theorem tilesOf_append {l : Nat} (hl : l ∈ scheduled.flatMap Model.ids) :
    tilesOf (scheduled ++ [m]) l = tilesOf scheduled l := by
  obtain ⟨m₂, hm₂, hl⟩ := List.mem_flatMap.mp hl
  obtain ⟨x, hx, rfl⟩ := Model.mem_ids.mp hl
  have hsome : ((scheduled.flatMap (·.operationMap)).find? (·.id == x.id)).isSome := by
    rw [List.find?_isSome]
    exact ⟨x, List.mem_flatMap.mpr ⟨m₂, hm₂, hx⟩, by simp⟩
  obtain ⟨y, hy⟩ := Option.isSome_iff_exists.mp hsome
  unfold tilesOf
  rw [List.flatMap_append, List.find?_append, hy, Option.some_or]

/-- A new model: nothing of it has been taken. -/
theorem Inv.schedule (h : Inv scheduled b) (hsound : m.Sound init [] []) (honce : m.Once [])
    (hids : ((scheduled ++ [m]).flatMap Model.ids).Nodup) {models : List Model}
    (hmodels : models.Perm (m :: b.models)) :
    Inv (scheduled ++ [m]) { b with models := models } := by
  have hnew : ∀ l ∈ m.ids, ¬ (b.active l ∨ l ∈ b.retired ∨ b.entered l ≠ []) := by
    intro l hl hknown
    rw [List.flatMap_append, List.nodup_append] at hids
    exact hids.2.2 l (h.known l hknown) l (by simpa using hl) rfl
  refine ⟨?_, hids, fun l hl => ?_, fun hselfs m₂ hm₂ => ?_, fun m₂ hm₂ => ?_⟩
  · have hperm : (models.map Model.graph).Perm (m.graph :: b.models.map Model.graph) :=
      hmodels.map Model.graph
    refine hperm.trans ?_
    rw [List.map_append]
    exact ((h.graphs.cons m.graph).trans (List.perm_append_singleton _ _).symm)
  · rw [List.flatMap_append]
    exact List.mem_append_left _ (h.known l hl)
  · rcases List.mem_cons.mp (hmodels.subset hm₂) with rfl | hold
    · exact hselfs _ (by simp)
    · exact h.selfs (fun m hm => hselfs m (List.mem_append_left _ hm)) m₂ hold
  · rcases List.mem_cons.mp (hmodels.subset hm₂) with rfl | hold
    · refine ⟨init, [], [], hsound, fun _ => honce, fun _ hl => (nomatch hl), fun x hx => ?_,
        fun x hx _ => ⟨?_, ?_⟩, fun _ _ hl => (nomatch hl)⟩
      · have hx' := hnew x.id (List.mem_map_of_mem hx)
        refine ⟨fun hl => (nomatch hl), fun hl => ?_⟩
        exact absurd (hl.imp_right Or.inl) hx'
      · by_contra hne
        exact hnew x.id (List.mem_map_of_mem hx) (.inr (.inr hne))
      · exact (tilesOf_eq hids (by simp) hx).symm
    · obtain ⟨init, returned, finished, ht⟩ := h.tracked m₂ hold
      have hsame : ∀ x ∈ m₂.operationMap,
          tilesOf (scheduled ++ [m]) x.id = tilesOf scheduled x.id :=
        fun x hx => tilesOf_append (h.ids_mem hold (List.mem_map_of_mem hx))
      refine ⟨init, returned, finished, ht.sound, ht.once, ht.retired, ht.taken,
        fun x hx hnot => ?_, fun x hx hmem => ?_⟩
      · rw [hsame x hx]
        exact ht.before x hx hnot
      · rw [hsame x hx]
        exact ht.after x hx hmem

/-! ## Finished operations -/

/-- What is left of a scheduled model has its operations. -/
theorem Inv.exists_model (h : Inv scheduled b) (hm : m ∈ scheduled) :
    ∃ m' ∈ b.models, m'.graph = m.graph := by
  have hmem := h.graphs.symm.subset (List.mem_map_of_mem hm)
  exact List.mem_map.mp hmem

/-- An operation of which tiles have entered reads outputs of finished operations only. -/
theorem Inv.producers_finished (h : Inv scheduled b) (hm : m ∈ scheduled) {x y : Operation}
    (hx : x ∈ m.operationMap) (hy : y ∈ m.operationMap) (hentered : b.entered x.id ≠ []) {t : Nat}
    (htx : t ∈ x.inputs) (hty : t ∈ y.outputs) :
    y.id ∈ b.retired ∧ b.entered y.id = y.tiles ∧
      ∃ m' ∈ b.models, ∃ y' ∈ m'.operationMap, y'.id = y.id ∧ y'.finish = true := by
  obtain ⟨m', hm', hgraph⟩ := h.exists_model hm
  obtain ⟨init, returned, finished, ht⟩ := h.tracked m' hm'
  have hexists : ∀ z ∈ m.operationMap, ∃ z' ∈ m'.operationMap, Model.wires z' = Model.wires z := by
    intro z hz
    have hmem : Model.wires z ∈ m'.graph := hgraph ▸ List.mem_map_of_mem hz
    exact List.mem_map.mp hmem
  obtain ⟨x', hx', hwx⟩ := hexists x hx
  obtain ⟨y', hy', hwy⟩ := hexists y hy
  obtain ⟨hidx, hinx, -⟩ := Model.wires_eq hwx
  obtain ⟨hidy, -, houty⟩ := Model.wires_eq hwy
  have htaken : x'.id ∈ returned := by
    by_contra hnot
    exact hentered (hidx ▸ (ht.before x' hx' hnot).1)
  have hfinished := ht.sound.inputs_finished hx' (List.mem_append_left _ htaken) hy'
    (hinx.symm ▸ htx) (houty.symm ▸ hty)
  obtain ⟨hall, -⟩ := ht.after y' hy' (ht.sound.taken _ hfinished)
  rw [hidy, tilesOf_eq h.ids hm hy] at hall
  exact ⟨hidy ▸ ht.retired _ hfinished, hall, m', hm', y', hy', hidy,
    (ht.sound.finish y' hy').mpr hfinished⟩

/-- An operation that is taken although it has been taken before has no tiles. -/
theorem Inv.again (h : Inv scheduled b) (hm : m ∈ b.models) {op : Operation}
    (htake : m.getExecutableTile = some (op, m')) (hold : b.active op.id ∨ op.id ∈ b.retired) :
    op.tiles = [] := by
  obtain ⟨init, returned, finished, ht⟩ := h.tracked m hm
  obtain ⟨hop, -, -⟩ := taken_mem htake
  exact (ht.after op hop ((ht.taken op hop).mpr hold)).2

/-- No tile has entered of an operation that has not been taken. -/
theorem Inv.entered_eq_nil (h : Inv scheduled b) (hm : m ∈ b.models) {x : Operation}
    (hx : x ∈ m.operationMap) (hidle : ¬ b.active x.id) (hnew : x.id ∉ b.retired) :
    b.entered x.id = [] := by
  obtain ⟨init, returned, finished, ht⟩ := h.tracked m hm
  have hnot : x.id ∉ returned := fun hmem =>
    ((ht.taken x hx).mp hmem).elim hidle hnew
  exact (ht.before x hx hnot).1

/-- Every operation of the scheduled models has a tile, and none is a child of its own outputs. -/
def Live (scheduled : List Model) : Prop :=
  ∀ m ∈ scheduled, m.NoSelf ∧ ∀ x ∈ m.operationMap, x.tiles ≠ []

/-- There, an operation that is taken has a tile. -/
theorem Inv.tiles_ne_nil (h : Inv scheduled b) (hlive : Live scheduled) (hm : m ∈ b.models)
    {op : Operation} (htake : m.getExecutableTile = some (op, m')) : op.tiles ≠ [] := by
  obtain ⟨init, returned, finished, ht⟩ := h.tracked m hm
  obtain ⟨hop, -, hexec⟩ := taken_mem htake
  have honce := ht.once (h.selfs (fun m hm => (hlive m hm).1) m hm)
  have hnot : op.id ∉ returned := fun hmem =>
    (List.nodup_append.mp honce).2.2 _ hmem _ hexec rfl
  rw [(ht.before op hop hnot).2]
  obtain ⟨m₀, hm₀, hid⟩ := List.mem_flatMap.mp (h.ids_mem hm (List.mem_map_of_mem hop))
  obtain ⟨x, hx, hxid⟩ := Model.mem_ids.mp hid
  rw [← hxid, tilesOf_eq h.ids hm₀ hx]
  exact (hlive m₀ hm₀).2 x hx

end Board

end OnnxSim
