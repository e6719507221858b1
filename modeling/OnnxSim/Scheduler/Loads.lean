import Mathlib.Algebra.BigOperators.Group.List.Basic
import Mathlib.Algebra.Ring.Nat
import OnnxSim.Scheduler.Chains
import OnnxSim.Scheduler.Dependencies

/-!
# The loads of the cores

`_tile_num` and `_ins_num` count what a core has been given, and each entry of `core_pq` repeats them
(`Scheduler.LoadsAgree`). `issue_tile_per_core` without arguments gives a tile to the least loaded core
and counts it there, so no core is ever more than one tile ahead of another
(`System.balanced_distribution`).
-/

namespace OnnxSim

/-- The tile was given to core `core` and is counted as its load. -/
def Tile.countsFor (core : Nat) (t : Tile) : Bool := decide (t.coreId = core) && !t.skip

theorem Tile.onCore_countsFor (t : Tile) (coreId core : Nat) :
    (t.onCore coreId).countsFor core = decide (core = coreId ∧ t.skip = false) := by
  unfold Tile.countsFor
  rw [Bool.decide_and]
  congr 1
  · exact decide_eq_decide.mpr (by simp only [Tile.onCore]; omega)
  · cases hskip : t.skip <;> simp [Tile.onCore, hskip]

/-- No tile of the model is a barrier. -/
def Model.BarFree (m : Model) : Prop := ∀ op ∈ m.operationMap, ∀ t ∈ op.tiles, t.status ≠ .BAR

theorem Model.TilesFrom.barFree {m m' : Model} (h : m.TilesFrom m') (hm : m.BarFree) :
    m'.BarFree := by
  intro o' ho' t ht
  obtain ⟨o, ho, -, htiles⟩ := h o' ho'
  exact hm o ho t (htiles t ht)

namespace Scheduler

variable {config : SimulationConfig} {s s' : Scheduler}

/-- The entry of `core_pq` that a core should have. -/
def loadOf (s : Scheduler) (core : Nat) : CoreLoad where
  tileCount := s.tileNum core
  insCount := s.insNum core
  coreId := core

/-- `core_pq` has one entry for each core, with what is counted for it. -/
def LoadsAgree (config : SimulationConfig) (s : Scheduler) : Prop :=
  s.corePq.Perm ((List.range config.numCores).map s.loadOf)

/-- The counted tiles of `layers` that core `core` was given. -/
def assigned (s : Scheduler) (layers : List Nat) (core : Nat) : List Tile :=
  (layers.flatMap s.taken).filter (Tile.countsFor core)

/-- The loads are those of the tiles that the cores were given, in all layers. -/
def LoadsCount (config : SimulationConfig) (s : Scheduler) : Prop :=
  ∃ layers : List Nat, layers.Nodup ∧ (∀ l, l ∉ layers → s.taken l = []) ∧
    ∀ core < config.numCores, s.tileNum core = (s.assigned layers core).length ∧
      s.insNum core = ((s.assigned layers core).map Tile.validIns).sum

/-- The tiles are spread evenly. -/
structure Balanced (config : SimulationConfig) (s : Scheduler) : Prop where
  agree : LoadsAgree config s
  count : LoadsCount config s
  even : ∀ c < config.numCores, ∀ d < config.numCores, s.tileNum c ≤ s.tileNum d + 1

theorem LoadsAgree.congr (h : LoadsAgree config s) (hpq : s'.corePq = s.corePq)
    (htile : s'.tileNum = s.tileNum) (hins : s'.insNum = s.insNum) : LoadsAgree config s' := by
  have hloads : s'.loadOf = s.loadOf := by
    unfold loadOf
    rw [htile, hins]
  unfold LoadsAgree
  rw [hpq, hloads]
  exact h

/-- Only the loads and the tiles that were taken matter. -/
theorem Balanced.congr (h : Balanced config s) (hpq : s'.corePq = s.corePq)
    (htile : s'.tileNum = s.tileNum) (hins : s'.insNum = s.insNum) (htaken : s'.taken = s.taken) :
    Balanced config s' := by
  obtain ⟨hagree, hcount, heven⟩ := h
  refine ⟨hagree.congr hpq htile hins, ?_, htile ▸ heven⟩
  simpa only [LoadsCount, assigned, htile, hins, htaken] using hcount

/-! ## One tile -/

theorem LoadsAgree.top (h : LoadsAgree config s) {top : CoreLoad} (htop : topLoad s.corePq = some top) :
    top = s.loadOf top.coreId ∧ top.coreId < config.numCores := by
  obtain ⟨core, hcore, rfl⟩ := List.mem_map.mp (h.subset (topLoad_eq_some htop).1)
  exact ⟨rfl, List.mem_range.mp hcore⟩

theorem LoadsAgree.top_le (h : LoadsAgree config s) {top : CoreLoad}
    (htop : topLoad s.corePq = some top) {core : Nat} (hcore : core < config.numCores) :
    s.tileNum top.coreId ≤ s.tileNum core := by
  have hmem : s.loadOf core ∈ s.corePq :=
    h.symm.subset (List.mem_map_of_mem (List.mem_range.mpr hcore))
  have hmin := (topLoad_eq_some htop).2 _ hmem
  rw [(h.top htop).1, ← Bool.not_eq_true, CoreLoad.before_iff] at hmin
  simp only [loadOf] at hmin
  omega

/-- The entry of one core is taken out and put back with its new load. -/
theorem LoadsAgree.put (h : LoadsAgree config s) {top load : CoreLoad}
    (htop : topLoad s.corePq = some top) (hload : load = s'.loadOf top.coreId)
    (hother : ∀ core, core ≠ top.coreId → s'.loadOf core = s.loadOf core)
    (hpq : s'.corePq = s.corePq.erase top ++ [load]) : LoadsAgree config s' := by
  obtain ⟨hentry, hcore⟩ := h.top htop
  have hmem : top.coreId ∈ List.range config.numCores := List.mem_range.mpr hcore
  have hrange := List.perm_cons_erase hmem
  have hrest : (s.corePq.erase top).Perm
      (((List.range config.numCores).erase top.coreId).map s.loadOf) := by
    refine List.Perm.cons_inv (a := top) ?_
    refine (List.perm_cons_erase (topLoad_eq_some htop).1).symm.trans (h.trans ?_)
    have hcons := hrange.map s.loadOf
    rwa [List.map_cons, ← hentry] at hcons
  have hsame : ((List.range config.numCores).erase top.coreId).map s.loadOf =
      ((List.range config.numCores).erase top.coreId).map s'.loadOf := by
    refine List.map_congr_left fun core hin => (hother core ?_).symm
    exact (List.nodup_range.mem_erase_iff.mp hin).1
  unfold LoadsAgree
  rw [hpq]
  refine (List.perm_append_singleton _ _).trans ?_
  rw [hload]
  refine ((hsame ▸ hrest).cons _).trans ?_
  exact (hrange.map s'.loadOf).symm

/-- One more tile of layer `l` has been taken. -/
theorem flatMap_update_perm {f : Nat → List Tile} {layers : List Nat} (hlayers : layers.Nodup)
    {l : Nat} (hl : l ∈ layers) (t : Tile) :
    (layers.flatMap (Function.update f l (f l ++ [t]))).Perm (layers.flatMap f ++ [t]) := by
  have hcons := List.perm_cons_erase hl
  have hrest : (layers.erase l).flatMap (Function.update f l (f l ++ [t])) =
      (layers.erase l).flatMap f := by
    refine List.flatMap_congr fun k hk => Function.update_of_ne ?_ _ _
    exact (hlayers.mem_erase_iff.mp hk).1
  refine (hcons.flatMap_right _).trans ?_
  rw [List.flatMap_cons, Function.update_self, hrest, List.append_assoc]
  refine (List.Perm.append_left _ List.perm_append_comm).trans ?_
  rw [← List.append_assoc]
  exact ((hcons.flatMap_right f).symm.append_right [t])

/-- The layers with one more. -/
theorem exists_layers {layers : List Nat} (hlayers : layers.Nodup)
    (hempty : ∀ l, l ∉ layers → s.taken l = []) (l : Nat) :
    ∃ layers' : List Nat, layers'.Nodup ∧ l ∈ layers' ∧ (∀ k, k ∉ layers' → s.taken k = []) ∧
      layers'.flatMap s.taken = layers.flatMap s.taken := by
  by_cases hl : l ∈ layers
  · exact ⟨layers, hlayers, hl, hempty, rfl⟩
  · refine ⟨l :: layers, List.nodup_cons.mpr ⟨hl, hlayers⟩, List.mem_cons_self, ?_, ?_⟩
    · exact fun k hk => hempty k fun hmem => hk (List.mem_cons_of_mem _ hmem)
    · rw [List.flatMap_cons, hempty l hl, List.nil_append]

/-- A tile has been given to core `coreId`. -/
theorem LoadsCount.give (h : LoadsCount config s) {tile : Tile} {coreId : Nat}
    (htaken : s'.taken = Function.update s.taken tile.layerId
      (s.taken tile.layerId ++ [tile.onCore coreId]))
    (htile : ∀ core, s'.tileNum core =
      s.tileNum core + if core = coreId ∧ tile.skip = false then 1 else 0)
    (hins : ∀ core, s'.insNum core =
      s.insNum core + if core = coreId ∧ tile.skip = false then tile.validIns else 0) :
    LoadsCount config s' := by
  obtain ⟨layers, hlayers, hempty, hcount⟩ := h
  obtain ⟨layers', hlayers', hmem, hempty', heq⟩ := exists_layers hlayers hempty tile.layerId
  refine ⟨layers', hlayers', fun l hl => ?_, fun core hcore => ?_⟩
  · rw [htaken, Function.update_of_ne (ne_of_mem_of_not_mem hmem hl).symm]
    exact hempty' l hl
  · have hperm : (s'.assigned layers' core).Perm (s.assigned layers core ++
        [tile.onCore coreId].filter (Tile.countsFor core)) := by
      unfold assigned
      rw [htaken, ← List.filter_append, ← heq]
      exact (flatMap_update_perm hlayers' hmem _).filter _
    obtain ⟨htiles, hsum⟩ := hcount core hcore
    rw [hperm.length_eq, (hperm.map Tile.validIns).sum_eq, List.length_append, List.map_append,
      List.sum_append, ← htiles, ← hsum, htile, hins, List.filter_singleton, Tile.onCore_countsFor]
    by_cases hgiven : core = coreId ∧ tile.skip = false
    · simp [hgiven, Tile.onCore, Tile.validIns]
    · simp [hgiven]

/-- An iteration of `issue_tile_per_core` has taken the entry `top` from `core_pq`. -/
structure Gives (config : SimulationConfig) (offset : Nat) (s : Scheduler) (tile : Tile)
    (top : CoreLoad) (s' : Scheduler) : Prop where
  least : topLoad s.corePq = some top
  inBounds : tile.skip = false → top.coreId + offset < config.numCores
  tileNum : ∀ core, s'.tileNum core =
    s.tileNum core + if core = top.coreId + offset ∧ tile.skip = false then 1 else 0
  insNum : ∀ core, s'.insNum core =
    s.insNum core + if core = top.coreId + offset ∧ tile.skip = false then tile.validIns else 0
  corePq : s'.corePq = s.corePq.erase top ++ [if tile.skip then top else
    { s'.loadOf (top.coreId + offset) with coreId := top.coreId }]

theorem exists_gives {remap : Nat → Nat} {offset p : Nat} {tile : Tile}
    (h : issueTile config remap offset p s tile = some s') :
    ∃ top, Gives config offset s tile top s' ∧
      s'.requestQueue = s.requestQueue ∧
      s'.executableTileQueue = Function.update s.executableTileQueue p
        (s.executableTileQueue p).tail ∧
      s'.taken = Function.update s.taken tile.layerId
        (s.taken tile.layerId ++ [tile.onCore (remap (top.coreId + offset))]) := by
  obtain ⟨top, htop, h⟩ := Option.bind_eq_some_iff.mp h
  obtain ⟨⟨load, u⟩, hu, h⟩ := Option.bind_eq_some_iff.mp h
  obtain rfl := Option.some.inj h
  refine ⟨top, ?_⟩
  unfold countTile at hu
  split at hu
  · rename_i hskip
    obtain ⟨rfl, rfl⟩ := Prod.mk.inj (Option.some.inj hu)
    refine ⟨⟨htop, fun hnot => ?_, ?_, ?_, ?_⟩, rfl, rfl, rfl⟩
    · rw [hskip] at hnot
      cases hnot
    · simp [hskip, place]
    · simp [hskip, place]
    · simp [hskip]
  · rename_i hskip
    have hcounted : tile.skip = false := by simpa using hskip
    split at hu
    · rename_i hlt
      obtain ⟨rfl, rfl⟩ := Prod.mk.inj (Option.some.inj hu)
      refine ⟨⟨htop, fun _ => hlt, fun core => ?_, fun core => ?_, ?_⟩, rfl, rfl, rfl⟩
      · by_cases hcore : core = top.coreId + offset
        · simp [hcore, hcounted, place]
        · simp [hcore, place]
      · by_cases hcore : core = top.coreId + offset
        · simp [hcore, hcounted, place]
        · simp [hcore, place]
      · simp [hcounted, loadOf, place]
    · cases hu

/-- A tile is skipped, or charged to the least loaded core. -/
theorem LoadsAgree.gives (h : LoadsAgree config s) {offset : Nat} {tile : Tile} {top : CoreLoad}
    (hgives : Gives config offset s tile top s') (hcharged : tile.skip = false → offset = 0) :
    LoadsAgree config s' := by
  refine h.put hgives.least ?_ ?_ hgives.corePq
  · split
    · rename_i hskip
      rw [(h.top hgives.least).1]
      simp [loadOf, hgives.tileNum, hgives.insNum, hskip]
    · rename_i hcounted
      rw [hcharged (by simpa using hcounted)]
      rfl
  · intro core hcore
    have hnot : ¬ (core = top.coreId + offset ∧ tile.skip = false) := by
      rintro ⟨hsum, hcounted⟩
      rw [hcharged hcounted] at hsum
      exact hcore hsum
    simp [loadOf, hgives.tileNum, hgives.insNum, hnot]

theorem Balanced.issueTile (h : Balanced config s) {p : Nat} {tile : Tile}
    (hs : issueTile config id 0 p s tile = some s') : Balanced config s' := by
  obtain ⟨top, hgives, -, -, htaken⟩ := exists_gives hs
  refine ⟨h.agree.gives hgives fun _ => rfl, ?_, ?_⟩
  · refine h.count.give htaken ?_ ?_
    · simpa using hgives.tileNum
    · simpa using hgives.insNum
  · intro c hc d hd
    have heven := h.even c hc d hd
    have hleast := h.agree.top_le hgives.least hd
    have hc' := hgives.tileNum c
    have hd' := hgives.tileNum d
    by_cases htop : c = top.coreId
    · subst htop
      split at hc' <;> omega
    · rw [if_neg (by simp [htop])] at hc'
      omega

/-! ## Runs without barriers -/

/-- No barrier waits or can come, and the tiles are spread evenly. -/
structure Spread (config : SimulationConfig) (s : Scheduler) : Prop where
  models : ∀ r ∈ s.requestQueue, r.model.BarFree
  queued : ∀ p, ∀ t ∈ s.executableTileQueue p, t.status ≠ .BAR
  balanced : Balanced config s

theorem Spread.issueTile (h : Spread config s) {p : Nat} {tile : Tile}
    (hs : issueTile config id 0 p s tile = some s') : Spread config s' := by
  obtain ⟨top, -, hrequests, hqueues, -⟩ := exists_gives hs
  refine ⟨hrequests ▸ h.models, fun q t ht => ?_, h.balanced.issueTile hs⟩
  rw [hqueues, Function.update_apply] at ht
  split at ht
  · exact h.queued p t (List.mem_of_mem_tail ht)
  · exact h.queued q t ht

theorem Spread.issueLoop {p n : Nat} (h : Spread config s)
    (hs : issueLoop config id 0 p n s = some s') : Spread config s' := by
  induction n generalizing s with
  | zero =>
    obtain rfl := Option.some.inj hs
    exact h
  | succ n ih =>
    unfold Scheduler.issueLoop at hs
    split at hs
    · obtain rfl := Option.some.inj hs
      exact h
    · split at hs
      · obtain rfl := Option.some.inj hs
        exact h
      · obtain ⟨u, hu, hs⟩ := Option.bind_eq_some_iff.mp hs
        exact ih (h.issueTile hu) hs

/-- A change of the requests alone. -/
theorem Spread.requests (h : Spread config s) {requests : List Request}
    (hmodels : ∀ r ∈ requests, r.model.BarFree) (rr : Nat) (calls : List Nat) (left : List Model) :
    Spread config { s with
      requestQueue := requests, requestRr := rr, langFinished := calls, left := left } :=
  ⟨hmodels, h.queued, h.balanced.congr rfl rfl rfl rfl⟩

theorem Spread.dropFront (h : Spread config s) : Spread config s.dropFront := by
  unfold Scheduler.dropFront
  split
  · exact h
  · rename_i r rest hqueue
    split
    · exact h.requests (fun r' hr' => h.models r' (hqueue ▸ List.mem_cons_of_mem _ hr')) _ _ _
    · exact h

theorem Spread.dropFinished (h : Spread config s) : Spread config s.dropFinished :=
  h.requests (fun r hr => h.models r (List.mem_of_mem_filter hr)) _ _ _

theorem Spread.putModel (h : Spread config s) (i : Nat) (r : Request) {m : Model} (hm : m.BarFree) :
    Spread config (s.putModel i r m) := by
  refine h.requests (fun r' hr' => ?_) _ _ _
  rcases List.mem_or_eq_of_mem_set hr' with hr' | rfl
  · exact h.models r' hr'
  · exact hm

theorem Start.tilesFrom {type : SchedulerType} {r : Request} {i requestId : Nat}
    {take : Model → Nat → Model} (h : Start type s r i take requestId) (m : Model) (layerId : Nat) :
    m.TilesFrom (take m layerId) := by
  cases h with
  | simple => exact Model.clearTiles_tilesFrom layerId
  | other => exact Model.moveTiles_tilesFrom layerId

theorem Spread.start {type : SchedulerType} {i requestId : Nat} {r : Request} {op : Operation}
    {m : Model} {take : Model → Nat → Model} (h : Spread config s) (hr : s.requestQueue[i]? = some r)
    (hm : r.model.getExecutableTile = some (op, m)) (htake : Start type s r i take requestId)
    (hs : issueTilePerCore config ((s.putModel i r (take m op.id)).enqueueLayer op requestId 0) =
      some s') : Spread config s' := by
  obtain ⟨hop, hfrom⟩ := Model.getExecutableTile_tilesFrom hm
  have hmodel := h.models r (List.mem_of_getElem? hr)
  have hput := h.putModel i r ((htake.tilesFrom m op.id).barFree (hfrom.barFree hmodel))
  refine Spread.issueLoop (s := (s.putModel i r (take m op.id)).enqueueLayer op requestId 0)
    ⟨hput.models, fun q t ht => ?_, hput.balanced.congr rfl rfl rfl rfl⟩ hs
  unfold enqueueLayer at ht
  simp only [Function.update_apply] at ht
  split at ht
  · rcases List.mem_append.mp ht with ht | ht
    · exact h.queued 0 t ht
    · exact hmodel op hop t ht
  · exact h.queued q t ht

theorem Spread.refreshStatus {type : SchedulerType} (htype : type ≠ .partitionCpu)
    (h : Spread config s) (hs : refreshStatus config type s = some s') : Spread config s' := by
  cases type with
  | simple =>
    exact refreshSimple_steps (fun _ _ h => h.dropFront)
      (fun _ _ _ _ _ _ _ _ h hr hm _ _ _ htake hs => h.start hr hm htake hs) rfl h hs
  | timeMultiplex =>
    have hnot : SchedulerType.timeMultiplex ≠ .simple := by simp
    refine refreshTimeMultiplex_steps (fun _ _ h => h.dropFinished)
      (fun _ rr h => h.requests h.models rr _ _) ?_
      (fun _ _ _ _ _ _ _ _ h hr hm _ _ _ htake hs => h.start hr hm htake hs) hnot h hs
    intro s i r op m h hr hm _
    obtain ⟨-, hfrom⟩ := Model.getExecutableTile_tilesFrom hm
    exact h.putModel i r (hfrom.barFree (h.models r (List.mem_of_getElem? hr)))
  | partitionCpu => exact absurd rfl htype

theorem Spread.finishTile {type : SchedulerType} {layerId : Nat} (htype : type ≠ .partitionCpu)
    (h : Spread config s) (hs : finishTile config type s layerId = some s') : Spread config s' := by
  obtain ⟨stat, -, -, ⟨-, hs⟩ | ⟨-, u, hu, hs⟩⟩ := finishTile_eq_some hs
  · exact Spread.refreshStatus (s := s.setLayerStat layerId _) htype
      ⟨h.models, h.queued, h.balanced.congr rfl rfl rfl rfl⟩ hs
  · obtain ⟨requests, rfl, hrequests⟩ := setLayerFinish_requests (P := Model.BarFree)
      (s := s.setLayerStat layerId _)
      (fun m m' hm hm' => (Model.setLayerFinish_tilesFrom hm').barFree hm) h.models hu
    exact Spread.refreshStatus (s := { s with
        requestQueue := requests, retired := s.retired ++ [layerId], activeLayersMap := _ }) htype
      ⟨hrequests, h.queued, h.balanced.congr rfl rfl rfl rfl⟩ hs

theorem Spread.getTile {type : SchedulerType} {core : Nat} {tile : Option Tile}
    (htype : type ≠ .partitionCpu) (h : Spread config s)
    (hs : getTile config type s core = some (tile, s')) : Spread config s' := by
  unfold Scheduler.getTile at hs
  simp only at hs
  split at hs
  · obtain ⟨u, hu, hs⟩ := Option.bind_eq_some_iff.mp hs
    obtain ⟨-, rfl⟩ := Prod.mk.inj (Option.some.inj hs)
    exact h.refreshStatus htype hu
  · obtain ⟨-, rfl⟩ := Prod.mk.inj (Option.some.inj hs)
    exact ⟨h.models, h.queued, h.balanced.congr rfl rfl rfl rfl⟩
  · rename_i bar rest _ hqueue
    split at hs
    · rename_i hbar
      refine absurd hbar (h.queued (config.partitionOf core) bar ?_)
      rw [hqueue]
      exact List.mem_cons_self
    · obtain ⟨-, rfl⟩ := Prod.mk.inj (Option.some.inj hs)
      exact h

theorem spread_init (config : SimulationConfig) : Spread config (init config) := by
  refine ⟨fun r hr => absurd hr List.not_mem_nil, fun p t ht => absurd ht List.not_mem_nil,
    List.Perm.refl _, ⟨[], List.nodup_nil, fun l _ => rfl, fun core _ => ⟨rfl, rfl⟩⟩,
    fun c _ d _ => Nat.zero_le 1⟩

end Scheduler

namespace System

variable {config : SimulationConfig} {type : SchedulerType} {s u : System}

theorem spread_step {a : Act} (htype : type ≠ .partitionCpu)
    (hbars : ∀ m ∈ a.scheduled, m.BarFree) (h : s.sched.Spread config)
    (hstep : step config type s a = some u) : u.sched.Spread config := by
  cases a with
  | scheduleModel requestId m tagged =>
    obtain ⟨sched, hsched, hstep⟩ := Option.bind_eq_some_iff.mp hstep
    obtain rfl := Option.some.inj hstep
    refine Scheduler.Spread.refreshStatus (s := { s.sched with
      requestQueue := s.sched.requestQueue ++ [{ requestId := requestId, model := m }] }) htype
      ⟨?_, h.queued, h.balanced.congr rfl rfl rfl rfl⟩ hsched
    refine List.forall_mem_append.mpr ⟨h.models, List.forall_mem_singleton.mpr ?_⟩
    exact hbars m List.mem_cons_self
  | getTile core =>
    unfold step at hstep
    simp only at hstep
    split at hstep
    · obtain ⟨⟨tile, sched⟩, hget, hstep⟩ := Option.bind_eq_some_iff.mp hstep
      obtain rfl := Option.some.inj hstep
      exact h.getTile htype hget
    · cases hstep
  | finishTile core i =>
    unfold step at hstep
    simp only at hstep
    split at hstep
    · obtain ⟨t, -, hstep⟩ := Option.bind_eq_some_iff.mp hstep
      obtain ⟨sched, hsched, hstep⟩ := Option.bind_eq_some_iff.mp hstep
      obtain rfl := Option.some.inj hstep
      exact Scheduler.Spread.finishTile (s := s.sched.report t) htype
        ⟨h.models, h.queued, h.balanced.congr rfl rfl rfl rfl⟩ hsched
    · cases hstep

/-- Without barriers, `simple` and `time_multiplex` spread the tiles evenly over the cores, and the
loads they keep are those of the tiles they gave. -/
theorem balanced_distribution {h : List (System × Act)}
    (htype : type = .simple ∨ type = .timeMultiplex) (run : Run config type h s)
    (hbars : ∀ m ∈ scheduledIn h, m.BarFree) : s.sched.Balanced config := by
  have hnot : type ≠ .partitionCpu := by
    rintro rfl
    simp at htype
  suffices hspread : s.sched.Spread config from hspread.balanced
  induction run with
  | nil => exact Scheduler.spread_init config
  | @snoc h t a u run hstep ih =>
    have hsnoc : scheduledIn (h ++ [(t, a)]) = scheduledIn h ++ a.scheduled := by
      simp [scheduledIn]
    rw [hsnoc] at hbars
    obtain ⟨hbefore, hlast⟩ := List.forall_mem_append.mp hbars
    exact spread_step hnot hlast (ih hbefore) hstep

/-- Two cores. -/
def twoCoreConfig : SimulationConfig where
  numCores := 2
  dramChannels := 1
  dramReqSize := 32

/-- A layer of three tiles, one of which is skipped. -/
def skippingModel : Model where
  operationMap := [{
    id := 0
    tiles := [{ status := .INITIALIZED, layerId := 0 },
      { status := .INITIALIZED, layerId := 0, skip := true },
      { status := .INITIALIZED, layerId := 0 }] }]
  executableLayer := [0]

theorem skippingModel_tagged : skippingModel.Tagged := by
  intro op hop t ht
  obtain rfl := List.mem_singleton.mp hop
  revert t
  decide

/-- The three tiles have been given out. -/
theorem balanced_distribution_skipping : ∃ h s, Run twoCoreConfig .simple h s ∧
    (s.sched.taken 0).length = 3 ∧ s.sched.Balanced twoCoreConfig := by
  have hlength : ([Act.scheduleModel 0 skippingModel skippingModel_tagged].foldlM
      (step twoCoreConfig .simple) (init twoCoreConfig)).map
        (fun s => (s.sched.taken 0).length) = some 3 := by decide +kernel
  obtain ⟨s, hs, hlength⟩ := Option.map_eq_some_iff.mp hlength
  obtain ⟨h, hacts, run⟩ := Machine.Run.of_foldlM hs
  refine ⟨h, s, run, hlength, balanced_distribution (.inl rfl) run fun m hm => ?_⟩
  have hscheduled : scheduledIn h = (h.map Prod.snd).flatMap Act.scheduled := by
    unfold scheduledIn
    rw [List.flatMap_map]
  rw [hscheduled, hacts] at hm
  obtain rfl := List.mem_singleton.mp hm
  intro op hop t ht
  obtain rfl := List.mem_singleton.mp hop
  revert t
  decide

end System

end OnnxSim
