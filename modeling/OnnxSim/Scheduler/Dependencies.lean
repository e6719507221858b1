import OnnxSim.Scheduler.Board
import OnnxSim.Scheduler.Departures
import OnnxSim.Scheduler.Tiles

/-!
# The order of the layers

The three schedulers make moves on their board (`Scheduler.Settled.refresh`). With the accounts of the
tiles, a layer that has finished has had all its tiles reported, so the operations whose outputs a
handed out tile reads are done (`Scheduler.Settled.producers_done`). And where every operation has a
tile, a layer that is active has tiles left (`Scheduler.Settled.live`).
-/

namespace OnnxSim

/-- Request `i` is one of the models in the queue. -/
theorem models_perm {queue : List Request} {i : Nat} {r : Request} (hr : queue[i]? = some r)
    (left : List Model) : (queue.map (·.model) ++ left).Perm
      (r.model :: ((queue.eraseIdx i).map (·.model) ++ left)) := by
  obtain ⟨hlt, rfl⟩ := List.getElem?_eq_some_iff.mp hr
  exact ((List.getElem_cons_eraseIdx_perm hlt).symm.map _).append_right left

theorem models_set_perm {queue : List Request} {i : Nat} {r : Request} (hr : queue[i]? = some r)
    (left : List Model) (r' : Request) : ((queue.set i r').map (·.model) ++ left).Perm
      (r'.model :: ((queue.eraseIdx i).map (·.model) ++ left)) := by
  obtain ⟨hlt, -⟩ := List.getElem?_eq_some_iff.mp hr
  exact ((List.set_perm_cons_eraseIdx hlt r').map _).append_right left

/-- The models that a run has scheduled. -/
def scheduledIn {σ : Type} (h : List (σ × System.Act)) : List Model := h.flatMap (·.2.scheduled)

namespace Scheduler

def board (s : Scheduler) : Board where
  models := s.requestQueue.map (·.model) ++ s.left
  active := s.isActive
  entered := s.entered
  retired := s.retired

/-- What holds between two calls: the accounts are in order, the board is, a layer that has finished
has no tile left, and where each operation has a tile, an active layer has one left. -/
structure Settled (config : SimulationConfig) (running : Nat → List Tile) (scheduled : List Model)
    (s : Scheduler) : Prop where
  accounts : Sound config running s
  board : Board.Inv scheduled s.board
  done : ∀ l ∈ s.retired, ∀ stat, s.activeLayersMap.lookup l = some stat → stat.remainTiles = 0
  live : Board.Live scheduled →
    ∀ l stat, s.activeLayersMap.lookup l = some stat → 0 < stat.remainTiles

variable {config : SimulationConfig} {type : SchedulerType} {running : Nat → List Tile}
  {scheduled : List Model} {s s' : Scheduler}

/-! ## Refreshing -/

theorem Settled.tagged (h : Settled config running scheduled s) : s.Tagged := by
  obtain ⟨home, hinv⟩ := h.accounts
  exact hinv.tagged

theorem sound_requests (s : Scheduler) (requests : List Request) (rr : Nat) (calls : List Nat)
    (left : List Model) (h : Sound config running s) (ht : ∀ r ∈ requests, r.model.Tagged) :
    Sound config running { s with
      requestQueue := requests, requestRr := rr, langFinished := calls, left := left } := by
  obtain ⟨home, hinv⟩ := h
  exact ⟨home, hinv.requests ht⟩

theorem sound_tagged (s : Scheduler) (h : Sound config running s) : s.Tagged := by
  obtain ⟨home, hinv⟩ := h
  exact hinv.tagged

theorem Settled.dropFront (h : Settled config running scheduled s) :
    Settled config running scheduled s.dropFront := by
  have haccounts := dropFront_keeps sound_tagged sound_requests h.accounts
  have hboard : Board.Inv scheduled s.dropFront.board := by
    unfold Scheduler.dropFront
    split
    · exact h.board
    · rename_i r rest hqueue
      split
      · have hmodels : (rest.map (·.model) ++ (s.left ++ [r.model])).Perm s.board.models := by
          simp only [Scheduler.board, hqueue, List.map_cons, List.cons_append]
          rw [← List.append_assoc]
          exact List.perm_append_singleton _ _
        exact h.board.move (.leave hmodels)
      · exact h.board
  have hsame : s.dropFront.activeLayersMap = s.activeLayersMap ∧
      s.dropFront.retired = s.retired := by
    unfold Scheduler.dropFront
    split
    · exact ⟨rfl, rfl⟩
    · split <;> exact ⟨rfl, rfl⟩
  refine ⟨haccounts, hboard, ?_, ?_⟩
  · rw [hsame.1, hsame.2]
    exact h.done
  · rw [hsame.1]
    exact h.live

theorem models_drop (queue : List Request) (left : List Model) :
    ((queue.filter fun r => !r.model.checkFinish).map (·.model) ++
      (left ++ (queue.filter fun r => r.model.checkFinish).map (·.model))).Perm
      (queue.map (·.model) ++ left) := by
  have hsplit : (queue.filter (fun r => !r.model.checkFinish) ++
      queue.filter fun r => r.model.checkFinish).Perm queue :=
    List.perm_append_comm.trans (List.filter_append_perm (fun r => r.model.checkFinish) queue)
  have hmap := (hsplit.map (·.model)).append_right left
  rw [List.map_append, List.append_assoc] at hmap
  exact (List.perm_append_comm.append_left _).trans hmap

theorem Settled.dropFinished (h : Settled config running scheduled s) :
    Settled config running scheduled s.dropFinished :=
  ⟨dropFinished_keeps sound_tagged sound_requests h.accounts,
    h.board.move (.leave (models_drop s.requestQueue s.left)), h.done, h.live⟩

/-- An active layer is taken again. -/
theorem Settled.skip {i : Nat} {r : Request} {op : Operation} {m : Model}
    (h : Settled config running scheduled s) (hr : s.requestQueue[i]? = some r)
    (hm : r.model.getExecutableTile = some (op, m)) (hactive : s.isActive op.id) :
    Settled config running scheduled (s.putModel i r m) := by
  have hmodel := (h.tagged r (List.mem_of_getElem? hr)).getExecutableTile hm
  exact ⟨putModel_keeps sound_tagged sound_requests h.accounts hmodel.1,
    h.board.move (.take (models_perm hr s.left) hm hactive
      (models_set_perm hr s.left { r with model := m })), h.done, h.live⟩

theorem Start.unloaded {r : Request} {i requestId : Nat} {take : Model → Nat → Model}
    (h : Start type s r i take requestId) (m : Model) (l : Nat) :
    Model.Unloaded l m (take m l) := by
  cases h with
  | simple => exact Model.unloaded_clearTiles m l
  | other => exact Model.unloaded_moveTiles m l

/-- Issuing tiles changes the queues and the loads only. -/
theorem issueLoop_board {remap : Nat → Nat} {offset p n : Nat} (h : Sound config running s)
    (hlands : Lands config remap offset)
    (hs : issueLoop config remap offset p n s = some s') :
    Sound config running s' ∧ s'.board = s.board ∧ s'.activeLayersMap = s.activeLayersMap := by
  refine issueLoop_induction (Q := fun u => Sound config running u ∧ u.board = s.board ∧
    u.activeLayersMap = s.activeLayersMap) ?_ hlands ⟨h, rfl, rfl⟩ hs
  rintro u u' remap offset p tile rest ⟨hu, hboard, hmap⟩ hlands hqueue hbar hu'
  refine ⟨hu.issueTile hlands hqueue hbar hu', ?_⟩
  obtain ⟨home, hinv⟩ := hu
  obtain ⟨core, pq, tileNum, insNum, -, -, rfl⟩ := issueTile_eq_some hinv.pq hlands hu'
  exact ⟨hboard, hmap⟩

/-- A layer starts. -/
theorem Settled.start {i p offset requestId : Nat} {r : Request} {op : Operation} {m : Model}
    {take : Model → Nat → Model} {remap : Nat → Nat} (h : Settled config running scheduled s)
    (hr : s.requestQueue[i]? = some r) (hm : r.model.getExecutableTile = some (op, m))
    (hqueue : s.executableTileQueue p = []) (hnew : s.activeLayersMap.lookup op.id = none)
    (hstart : Start type s r i take requestId) (hlands : Lands config remap offset)
    (hs : issueLoop config remap offset p
      (((s.putModel i r (take m op.id)).enqueueLayer op requestId p).executableTileQueue p).length
      ((s.putModel i r (take m op.id)).enqueueLayer op requestId p) = some s') :
    Settled config running scheduled s' := by
  have hmem : r.model ∈ s.board.models :=
    List.mem_append_left _ (List.mem_map_of_mem (List.mem_of_getElem? hr))
  obtain ⟨hmodel, hop⟩ := (h.tagged r (List.mem_of_getElem? hr)).getExecutableTile hm
  obtain ⟨home, hinv⟩ := putModel_keeps sound_tagged sound_requests h.accounts
    (i := i) (r := r) (hstart.tagged hmodel op.id)
  have hentered := @Inv.enqueueLayer _ _ _ _ _ requestId _ hinv hqueue hnew hop
  have hidle : s.isActive op.id = false := by simp [isActive, hnew]
  have hactive : ∀ l, ((s.putModel i r (take m op.id)).enqueueLayer op requestId p).isActive l ↔
      l = op.id ∨ s.isActive l := fun l => isSome_lookup_insert
  have hboard : Board.Inv scheduled
      ((s.putModel i r (take m op.id)).enqueueLayer op requestId p).board :=
    h.board.move (.start (models_perm hr s.left) hm hidle (hstart.unloaded m op.id)
      (models_set_perm hr s.left { r with model := take m op.id }) hactive)
  -- the queue was empty, so the layer's counter is the number of its tiles
  have hlookup : ∀ l stat, ((s.putModel i r (take m op.id)).enqueueLayer op requestId
      p).activeLayersMap.lookup l = some stat →
      l = op.id ∧ stat.remainTiles = op.tiles.length ∨ s.activeLayersMap.lookup l = some stat := by
    intro l stat hstat
    by_cases hl : l = op.id
    · subst hl
      obtain rfl := Option.some.inj ((AList.lookup_insert _).symm.trans hstat)
      exact .inl ⟨rfl, by simp [putModel, hqueue]⟩
    · exact .inr ((AList.lookup_insert_ne hl).symm.trans hstat)
  generalize hd : (s.putModel i r (take m op.id)).enqueueLayer op requestId p = d at *
  obtain ⟨haccounts, hsame, hmap⟩ := issueLoop_board ⟨_, hentered⟩ hlands hs
  have hretired : s'.retired = s.retired := by
    have hretired : s'.board.retired = d.board.retired := congrArg _ hsame
    exact hretired.trans (hd ▸ rfl)
  refine ⟨haccounts, hsame ▸ hboard, fun l hl stat hstat => ?_, fun hlive l stat hstat => ?_⟩
  · rw [hmap] at hstat
    rw [hretired] at hl
    rcases hlookup l stat hstat with ⟨rfl, hremain⟩ | hstat
    · rw [hremain, h.board.again hmem hm (.inr hl)]
      rfl
    · exact h.done l hl stat hstat
  · rw [hmap] at hstat
    rcases hlookup l stat hstat with ⟨rfl, hremain⟩ | hstat
    · rw [hremain]
      exact List.length_pos_iff.mpr (h.board.tiles_ne_nil hlive hmem hm)
    · exact h.live hlive l stat hstat

theorem Settled.refresh (h : Settled config running scheduled s)
    (hs : refreshStatus config type s = some s') : Settled config running scheduled s' := by
  refine refreshStatus_steps (Q := Settled config running scheduled) (fun _ _ h => h.dropFront)
    (fun _ _ h => h.dropFinished) ?_ ?_ ?_ h hs
  · intro s rr h
    obtain ⟨home, hinv⟩ := h.accounts
    exact ⟨⟨home, hinv.requests hinv.tagged⟩, h.board, h.done, h.live⟩
  · exact fun s i r op m h hr hm hactive => h.skip hr hm hactive
  · intro s s' i r op m take requestId p remap offset h hr hm hqueue hnew _ hstart hlands d hs
    exact h.start hr hm hqueue hnew hstart hlands hs

/-! ## Finishing a layer -/

/-- The models that are told of a finished layer. -/
theorem told_models {layerId requestId : Nat} {queue requests : List Request}
    (h : List.Forall₂ (Told layerId requestId) queue requests) :
    List.Forall₂ (fun m m' => m' = m ∨ m.setLayerFinish layerId = some m')
      (queue.map (·.model)) (requests.map (·.model)) := by
  rw [List.forall₂_map_left_iff, List.forall₂_map_right_iff]
  refine h.imp fun r r' hr => ?_
  unfold Told at hr
  split at hr
  · obtain ⟨m, hm, rfl⟩ := hr
    exact .inr hm
  · exact .inl (by rw [hr])

theorem setLayerFinish_told {layerId : Nat} {stat : LayerStat}
    (h : setLayerFinish type s layerId stat = some s') :
    ∃ requests, s' = { s with requestQueue := requests, retired := s.retired ++ [layerId] } ∧
      List.Forall₂ (fun m m' => m' = m ∨ m.setLayerFinish layerId = some m')
        (s.requestQueue.map (·.model)) (requests.map (·.model)) := by
  cases type with
  | simple =>
    simp only [setLayerFinish] at h
    split at h
    · cases h
    · rename_i r rest hqueue
      obtain ⟨m, hm, h⟩ := Option.bind_eq_some_iff.mp h
      refine ⟨_, (Option.some.inj h).symm, ?_⟩
      rw [hqueue]
      exact .cons (.inr hm) (List.forall₂_same.mpr fun _ _ => .inl rfl)
  | timeMultiplex | partitionCpu =>
    simp only [setLayerFinish] at h
    obtain ⟨requests, hrequests, h⟩ := Option.bind_eq_some_iff.mp h
    split at h
    · exact ⟨requests, (Option.some.inj h).symm, told_models (forall₂_told hrequests)⟩
    · cases h

/-- A tile of layer `l` has been counted, in a report or as a barrier that is popped. -/
structure Counted (s t : Scheduler) (l : Nat) (stat stat' : LayerStat) : Prop where
  before : s.activeLayersMap.lookup l = some stat
  after : t.activeLayersMap.lookup l = some stat'
  others : ∀ k, k ≠ l → t.activeLayersMap.lookup k = s.activeLayersMap.lookup k
  models : t.board.models = s.board.models
  entered : t.entered = s.entered
  retired : t.retired = s.retired
  left : stat.remainTiles ≠ 0
  remain : stat'.remainTiles = stat.remainTiles - 1

section counted

variable {t : Scheduler} {l : Nat} {stat stat' : LayerStat} (h : Settled config running scheduled s)
  (hcount : Counted s t l stat stat') {running' : Nat → List Tile}
  (haccounts : Sound config running' t)

include h hcount

/-- Only a layer that has not finished has tiles left. -/
theorem Counted.not_retired : l ∉ t.retired := by
  intro hl
  rw [hcount.retired] at hl
  exact hcount.left (h.done l hl stat hcount.before)

theorem Counted.board : Board.Inv scheduled t.board := by
  refine h.board.congr hcount.models hcount.entered hcount.retired fun k => ?_
  change t.isActive k ↔ s.isActive k
  by_cases hk : k = l
  · subst hk
    simp [isActive, hcount.before, hcount.after]
  · simp [isActive, hcount.others k hk]

include haccounts

theorem Counted.settled (hmore : stat'.remainTiles ≠ 0) : Settled config running' scheduled t := by
  refine ⟨haccounts, hcount.board h, fun k hk st hst => ?_, fun hall k st hst => ?_⟩
  · by_cases hkl : k = l
    · exact absurd (hkl ▸ hk) (hcount.not_retired h)
    · exact h.done k (hcount.retired ▸ hk) st ((hcount.others k hkl).symm.trans hst)
  · by_cases hkl : k = l
    · subst hkl
      obtain rfl := Option.some.inj (hcount.after.symm.trans hst)
      exact Nat.pos_of_ne_zero hmore
    · exact h.live hall k st ((hcount.others k hkl).symm.trans hst)

/-- The last tile: the layer finishes and leaves the map. Its counter may have changed in between. -/
theorem Counted.finish {u : Scheduler} {stat'' : LayerStat} {map : AList fun _ : Nat => LayerStat}
    (hlast : stat'.remainTiles = 0)
    (hmap : ∀ k, k ≠ l → map.lookup k = t.activeLayersMap.lookup k)
    (hu : Scheduler.setLayerFinish type { t with activeLayersMap := map } l stat'' = some u)
    (hs : Scheduler.refreshStatus config type
      { u with activeLayersMap := u.activeLayersMap.erase l } = some s') :
    Settled config running' scheduled s' := by
  obtain ⟨home, hinv⟩ := haccounts
  have htagged : Tagged { t with activeLayersMap := map } := hinv.tagged
  obtain ⟨requests, rfl, hrequests⟩ := setLayerFinish_eq_some htagged hu
  obtain ⟨requests', heq, htold⟩ := setLayerFinish_told hu
  obtain rfl : requests = requests' := congrArg Scheduler.requestQueue heq
  have hothers : ∀ k, k ≠ l → (map.erase l).lookup k = s.activeLayersMap.lookup k := fun k hk =>
    ((AList.lookup_erase_ne hk).trans (hmap k hk)).trans (hcount.others k hk)
  have herased : ∀ k, k ≠ l → (map.erase l).lookup k = t.activeLayersMap.lookup k :=
    fun k hk => (AList.lookup_erase_ne hk).trans (hmap k hk)
  have hnone : (map.erase l).lookup l = none := AList.lookup_erase l map
  have hinv' := hinv.erase hcount.after hlast hnone herased
  have hsound : Sound config running' { t with
      requestQueue := requests, activeLayersMap := map.erase l, retired := t.retired ++ [l] } :=
    ⟨home, hinv'.pq, hrequests, hinv'.entered, hinv'.located, hinv'.queues, hinv'.active,
      hinv'.inactive⟩
  refine Settled.refresh (s := { t with
    requestQueue := requests, activeLayersMap := map.erase l, retired := t.retired ++ [l] })
    ⟨hsound, ?_, fun k hk st hst => ?_, fun hall k st hst => ?_⟩ hs
  · refine (hcount.board h).move (.finish (isActive_iff.mpr ⟨stat', hcount.after⟩)
      (hcount.not_retired h) (List.rel_append htold (List.forall₂_same.mpr fun _ _ => .inl rfl))
      fun k => ?_)
    by_cases hk : k = l
    · subst hk
      simp [isActive, hnone]
    · simp [Scheduler.board, isActive, herased k hk, hk]
  · by_cases hkl : k = l
    · subst hkl
      cases hnone.symm.trans hst
    · rcases List.mem_append.mp hk with hk | hk
      · exact h.done k (hcount.retired ▸ hk) st ((hothers k hkl).symm.trans hst)
      · exact absurd (List.mem_singleton.mp hk) hkl
  · by_cases hkl : k = l
    · subst hkl
      cases hnone.symm.trans hst
    · exact h.live hall k st ((hothers k hkl).symm.trans hst)

end counted

/-- A core reports a tile. -/
theorem Settled.finishTile {core i : Nat} {tile : Tile} (h : Settled config running scheduled s)
    (hcore : core < config.numCores) (htile : (running core)[i]? = some tile)
    (hs : Scheduler.finishTile config type (s.report tile) tile.layerId = some s') :
    Settled config (Function.update running core ((running core).eraseIdx i)) scheduled s' := by
  obtain ⟨home, hinv⟩ := h.accounts
  obtain ⟨stat, hstat, hremain, hcases⟩ := finishTile_eq_some hs
  have hstat' : s.activeLayersMap.lookup tile.layerId = some stat := hstat
  have hreported := hinv.report hcore htile hstat'
  have hcount : Counted s ((s.report tile).setLayerStat tile.layerId { stat with
      remainTiles := stat.remainTiles - 1, finishedTiles := stat.finishedTiles + 1 }) tile.layerId
      stat _ :=
    ⟨hstat', AList.lookup_insert _, fun k hk => AList.lookup_insert_ne hk, rfl, rfl, rfl, hremain,
      rfl⟩
  rcases hcases with ⟨hmore, hs⟩ | ⟨hone, u, hu, hs⟩
  · refine Settled.refresh (hcount.settled h ⟨home, hreported⟩ ?_) hs
    simp only
    omega
  · refine hcount.finish h ⟨home, hreported⟩ ?_ (fun _ _ => rfl) hu hs
    simp only
    omega

/-- A barrier is popped, and its layer finishes or its next tiles are issued. -/
theorem Settled.popBar {core p : Nat} {bar : Tile} {rest : List Tile}
    (h : Settled config running scheduled s) (hqueue : s.executableTileQueue p = bar :: rest)
    (hbar : bar.status = .BAR) (hactive : s.isActive bar.layerId)
    (hs : Scheduler.afterBar config type (s.popBar p bar) core p bar.layerId = some s') :
    Settled config running scheduled s' := by
  obtain ⟨home, hinv⟩ := h.accounts
  obtain ⟨stat, hstat⟩ := isActive_iff.mp hactive
  have hpopped : Sound config running (s.popBar p bar) := ⟨home, hinv.popBar hqueue hbar⟩
  have hlookup := popBar_lookup (p := p) hstat
  have hremain : stat.remainTiles ≠ 0 := by
    obtain ⟨-, hhome⟩ := hinv.queues _ bar (hqueue ▸ List.mem_cons_self)
    have hcount := (hinv.active _ stat hstat).2
    rw [hhome, hqueue, countP_eq_length_filter_singleton] at hcount
    have hone : ([bar].filter (ofLayer bar.layerId)).length = 1 := by simp [ofLayer]
    omega
  have hcount : Counted s (s.popBar p bar) bar.layerId stat { stat with
      launchedTiles := stat.launchedTiles + 1
      finishedTiles := stat.finishedTiles + 1
      remainTiles := stat.remainTiles - 1 } :=
    ⟨hstat, hlookup, fun k hk => AList.lookup_insert_ne hk, rfl, rfl, rfl, hremain, rfl⟩
  unfold Scheduler.afterBar at hs
  simp only [layerStat_eq hlookup] at hs
  split at hs
  · rename_i hlast
    -- the layer's counter is raised to one for `finish_tile` to lower
    obtain ⟨stat', hstat', -, hcases⟩ := finishTile_eq_some hs
    have heq := (AList.lookup_insert _).symm.trans hstat'
    obtain rfl := Option.some.inj heq
    rcases hcases with ⟨hne, -⟩ | ⟨-, u, hu, hs⟩
    · exact absurd rfl hne
    · refine hcount.finish h hpopped hlast (fun k hk => ?_) hu hs
      exact (AList.lookup_insert_ne hk).trans (AList.lookup_insert_ne hk)
  · rename_i hmore
    have hsettled := hcount.settled h hpopped hmore
    unfold issueTilePerCoreIn at hs
    split at hs
    · cases hs
    · rename_i hcpus
      obtain ⟨haccounts, hboard, hmap⟩ := issueLoop_board hpopped (lands_partition hcpus) hs
      have hretired : s'.retired = (s.popBar p bar).retired := congrArg Board.retired hboard
      refine ⟨haccounts, hboard ▸ hsettled.board, ?_, ?_⟩
      · rw [hretired, hmap]
        exact hsettled.done
      · rw [hmap]
        exact hsettled.live

/-- Nothing changes but counters other than the remaining tiles. -/
theorem Settled.congr {t : Scheduler} {running' : Nat → List Tile}
    (h : Settled config running scheduled s) (haccounts : Sound config running' t)
    (hmodels : t.board.models = s.board.models) (hentered : t.entered = s.entered)
    (hretired : t.retired = s.retired)
    (hremain : ∀ l, (t.activeLayersMap.lookup l).map (·.remainTiles) =
      (s.activeLayersMap.lookup l).map (·.remainTiles)) :
    Settled config running' scheduled t := by
  have hlookup : ∀ l stat, t.activeLayersMap.lookup l = some stat →
      ∃ stat', s.activeLayersMap.lookup l = some stat' ∧ stat'.remainTiles = stat.remainTiles := by
    intro l stat hstat
    have hmap := hremain l
    rw [hstat] at hmap
    exact Option.map_eq_some_iff.mp hmap.symm
  refine ⟨haccounts, h.board.congr hmodels hentered hretired fun l => ?_,
    fun l hl stat hstat => ?_, fun hlive l stat hstat => ?_⟩
  · change t.isActive l ↔ s.isActive l
    unfold isActive
    rw [← Option.isSome_map (f := (·.remainTiles)), hremain, Option.isSome_map]
  · obtain ⟨stat', hstat', heq⟩ := hlookup l stat hstat
    exact heq ▸ h.done l (hretired ▸ hl) stat' hstat'
  · obtain ⟨stat', hstat', heq⟩ := hlookup l stat hstat
    exact heq ▸ h.live hlive l stat' hstat'

/-! ## What a handed out tile depends on -/

/-- A layer that has finished has had its tiles reported. -/
theorem Settled.reported_perm (h : Settled config running scheduled s) {l : Nat}
    (hl : l ∈ s.retired) : (anyCore (s.reported l)).Perm (anyCore ((s.entered l).filter notBar)) := by
  obtain ⟨home, hinv⟩ := h.accounts
  have hempty : waitingOf s (home l) l = [] ∧ queuedOf config.numCores s l = [] ∧
      runningOf config.numCores running l = [] := by
    cases hstat : s.activeLayersMap.lookup l with
    | none =>
      refine ⟨List.filter_eq_nil_iff.mpr fun t ht heq => ?_, hinv.inactive l hstat⟩
      have hactive := (hinv.queues _ t ht).1
      have htl : t.layerId = l := by simpa [ofLayer] using heq
      rw [isActive, htl, hstat] at hactive
      cases hactive
    | some stat =>
      have hremain := (hinv.active l stat hstat).2
      rw [h.done l hl stat hstat, List.countP_eq_length_filter] at hremain
      exact ⟨List.length_eq_zero_iff.mp (by unfold waitingOf; omega),
        List.length_eq_zero_iff.mp (by omega), List.length_eq_zero_iff.mp (by omega)⟩
  obtain ⟨hwaiting, hqueued, hrunning⟩ := hempty
  have htaken : ((s.taken l).filter notBar).Perm (s.reported l) := by
    refine List.perm_iff_count.mpr fun t => ?_
    rw [hinv.located l t, hqueued, hrunning, List.count_nil, Nat.zero_add]
  have hentered := hinv.entered l
  rw [hwaiting, List.append_nil] at hentered
  have hfilter : ∀ ts : List Tile, anyCore (ts.filter notBar) = (anyCore ts).filter notBar := by
    intro ts
    unfold anyCore
    rw [List.filter_map]
    rfl
  have hperm := htaken.symm.map (·.onCore 0)
  change (anyCore _).Perm (anyCore _) at hperm
  rwa [hfilter, hentered, ← hfilter] at hperm

/-- Operation `y` is done: its flag is set, and the cores have reported its tiles. -/
structure Done (s : Scheduler) (y : Operation) : Prop where
  finish : ∃ m ∈ s.board.models, ∃ y' ∈ m.operationMap, y'.id = y.id ∧ y'.finish = true
  retired : y.id ∈ s.retired
  reported : (anyCore (s.reported y.id)).Perm (anyCore (y.tiles.filter notBar))

/-- The operations whose outputs a layer reads are done once a tile of the layer waits for a core. -/
theorem Settled.producers_done (h : Settled config running scheduled s) {core : Nat} {tile : Tile}
    (hcore : core < config.numCores) (htile : tile ∈ s.coreExecutableTileQueue core) :
    ∃ m ∈ scheduled, ∃ x ∈ m.operationMap, x.id = tile.layerId ∧
      ∀ y ∈ m.operationMap, ∀ t ∈ x.inputs, t ∈ y.outputs → s.Done y := by
  obtain ⟨home, hinv⟩ := h.accounts
  have hentered : s.entered tile.layerId ≠ [] := by
    have hqueued : tile ∈ queuedOf config.numCores s tile.layerId :=
      List.mem_filter.mpr ⟨Queues.mem_pool.mpr ⟨core, hcore, htile⟩, by simp [ofLayer]⟩
    have hlocated := hinv.located tile.layerId tile
    have hpos := List.count_pos_iff.mpr hqueued
    have htaken : tile ∈ s.taken tile.layerId := by
      refine List.mem_of_mem_filter (p := notBar) (List.count_pos_iff.mp ?_)
      omega
    intro hnil
    have heq := hinv.entered tile.layerId
    rw [hnil] at heq
    have hmem : tile.onCore 0 ∈ anyCore (s.taken tile.layerId ++
        waitingOf s (home tile.layerId) tile.layerId) :=
      List.mem_map_of_mem (List.mem_append_left _ htaken)
    rw [heq] at hmem
    cases hmem
  obtain ⟨m, hm, hid⟩ := List.mem_flatMap.mp (h.board.known _ (.inr (.inr hentered)))
  obtain ⟨x, hx, hxid⟩ := Model.mem_ids.mp hid
  refine ⟨m, hm, x, hx, hxid, fun y hy t htx hty => ?_⟩
  obtain ⟨hretired, hall, hfinish⟩ :=
    h.board.producers_finished hm hx hy (hxid ▸ hentered) htx hty
  have hperm := h.reported_perm hretired
  have hall' : s.entered y.id = y.tiles := hall
  rw [hall'] at hperm
  exact ⟨hfinish, hretired, hperm⟩

end Scheduler

namespace System

open Scheduler

variable {config : SimulationConfig} {type : SchedulerType} {scheduled : List Model}
  {s u : System} {a : Act}

theorem settled_init : Settled config (init config).running [] (init config).sched := by
  refine ⟨sound_init, ⟨?_, List.nodup_nil, ?_, fun _ m hm => (nomatch hm),
    fun m hm => (nomatch hm)⟩, fun l hl => (nomatch hl), fun _ l stat hstat => ?_⟩
  · exact List.Perm.refl _
  · rintro l (hl | hl | hl)
    · cases hl
    · cases hl
    · exact absurd rfl hl
  · simp [init, Scheduler.init] at hstat

theorem settled_step (h : Settled config s.running scheduled s.sched)
    (hmodels : ∀ m ∈ a.scheduled, ∃ init, m.Sound init [] [] ∧ m.Once [])
    (hids : ((scheduled ++ a.scheduled).flatMap Model.ids).Nodup)
    (hs : step config type s a = some u) :
    Settled config u.running (scheduled ++ a.scheduled) u.sched := by
  have haccounts := sound_step h.accounts hs
  cases a with
  | scheduleModel requestId m tagged =>
    obtain ⟨sched, hsched, hs⟩ := Option.bind_eq_some_iff.mp hs
    obtain rfl := Option.some.inj hs
    obtain ⟨init, hsound, honce⟩ := hmodels m (by simp [Act.scheduled])
    have hpush : Sound config s.running { s.sched with requestQueue :=
        s.sched.requestQueue ++ [{ requestId := requestId, model := m }] } := by
      obtain ⟨home, hinv⟩ := h.accounts
      exact ⟨home, hinv.requests (tagged_schedule hinv.tagged tagged)⟩
    have hperm : ∀ r : Request, ((s.sched.requestQueue ++ [r]).map (·.model) ++ s.sched.left).Perm
        (r.model :: s.sched.board.models) := by
      intro r
      rw [List.map_append, List.append_assoc]
      exact List.perm_middle
    refine Settled.refresh ⟨hpush, h.board.schedule hsound honce hids (hperm ⟨requestId, m⟩), h.done, fun hlive => ?_⟩
      hsched
    exact h.live fun m hm => hlive m (List.mem_append_left _ hm)
  | getTile core =>
    simp only [Act.scheduled, List.append_nil]
    unfold step at hs
    simp only at hs
    split at hs
    · rename_i hcore
      obtain ⟨⟨tile, sched⟩, hget, hs⟩ := Option.bind_eq_some_iff.mp hs
      obtain rfl := Option.some.inj hs
      rcases getTile_cases h.accounts hcore hget with ⟨t, rest, stat, rfl, hqueue, hstat, rfl⟩ |
        ⟨rfl, ⟨-, hrefresh⟩ | ⟨bar, hbar, hactive, hafter⟩ | ⟨-, map, hmap, rfl⟩⟩
      · refine h.congr haccounts rfl rfl rfl fun l => ?_
        by_cases hl : l = t.layerId
        · subst hl
          simp [hstat]
        · simp [hl]
      · exact h.refresh hrefresh
      · obtain ⟨rest, hfront⟩ := hbar.front
        exact h.popBar hfront hbar.status hactive hafter
      · exact h.congr haccounts rfl rfl rfl fun l => by simp only [hmap]
    · cases hs
  | finishTile core i =>
    simp only [Act.scheduled, List.append_nil]
    unfold step at hs
    simp only at hs
    split at hs
    · rename_i hcore
      obtain ⟨tile, htile, hs⟩ := Option.bind_eq_some_iff.mp hs
      obtain ⟨sched, hsched, hs⟩ := Option.bind_eq_some_iff.mp hs
      obtain rfl := Option.some.inj hs
      exact h.finishTile hcore htile hsched
    · cases hs

theorem settled_run {h : List (System × Act)} (run : Run config type h s)
    (hmodels : ∀ m ∈ scheduledIn h, ∃ init, m.Sound init [] [] ∧ m.Once [])
    (hids : ((scheduledIn h).flatMap Model.ids).Nodup) :
    Settled config s.running (scheduledIn h) s.sched := by
  induction run with
  | nil => exact settled_init
  | @snoc h t a u run step ih =>
    have hsnoc : scheduledIn (h ++ [(t, a)]) = scheduledIn h ++ a.scheduled := by
      simp [scheduledIn]
    rw [hsnoc] at hmodels hids ⊢
    have hbefore := ih (fun m hm => hmodels m (List.mem_append_left _ hm)) (by
      rw [List.flatMap_append] at hids
      exact (List.nodup_append.mp hids).1)
    exact settled_step hbefore (fun m hm => hmodels m (List.mem_append_right _ hm)) hids step

end System

end OnnxSim
