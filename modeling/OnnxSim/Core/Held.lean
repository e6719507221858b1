import OnnxSim.Core.Run
import OnnxSim.Scheduler

/-!
# The tiles of a core

A tile that has been issued to a core is running there or has finished, until it is taken. On the way the
core writes into it and consumes its instructions; `Tile.label` is what stays. No call but `issue` and
`pop_finished_tile` changes which tiles a core holds (`Core.cycle_held`), and what is taken has finished
(`Core.Finished`).
-/

namespace OnnxSim

/-- The tile without what a scheduler and a core write into it. -/
def Tile.label (t : Tile) : Tile :=
  { t with
    status := .EMPTY
    stat := {}
    instructions := []
    spadId := 0
    accumSpadId := 0
    coreId := 0
    instFinished := false }

@[simp] theorem Tile.label_layerId (t : Tile) : t.label.layerId = t.layerId := rfl

@[simp] theorem Tile.label_onCore (t : Tile) (core : Nat) : (t.onCore core).label = t.label := rfl

theorem map_label_of_unmarked {l l' : List Tile} (h : l'.map Tile.unmarked = l.map Tile.unmarked) :
    l'.map Tile.label = l.map Tile.label := by
  have hlabel : ∀ l : List Tile, l.map Tile.label = (l.map Tile.unmarked).map Tile.label := by
    intro l
    rw [List.map_map]
    rfl
  rw [hlabel, h, ← hlabel]

namespace Core

/-- The tiles that a core has been issued and that have not been taken, by their labels. -/
def held (c : Core) : List Tile := (c.tiles ++ c.finishedTiles).map Tile.label

/-- The tiles that can be taken have finished. -/
def Finished (c : Core) : Prop := ∀ t ∈ c.finishedTiles, t.status = .FINISH

variable {config : SimulationConfig} {c d : Core}

/-- A stage of a cycle takes no tile away and finishes none. -/
structure Holds (c d : Core) : Prop where
  tiles : d.tiles.map Tile.label = c.tiles.map Tile.label
  finishedTiles : d.finishedTiles.map Tile.label = c.finishedTiles.map Tile.label
  finished : c.Finished → d.Finished

theorem Holds.refl (c : Core) : Holds c c := ⟨rfl, rfl, fun h => h⟩

theorem Holds.trans {e : Core} (h₁ : Holds c d) (h₂ : Holds d e) : Holds c e :=
  ⟨h₂.tiles.trans h₁.tiles, h₂.finishedTiles.trans h₁.finishedTiles, h₂.finished ∘ h₁.finished⟩

theorem Holds.held (h : Holds c d) : d.held = c.held := by
  unfold Core.held
  rw [List.map_append, List.map_append, h.tiles, h.finishedTiles]

theorem Holds.of_unmarked (htiles : d.tiles.map Tile.unmarked = c.tiles.map Tile.unmarked)
    (hfinished : d.finishedTiles.map Tile.unmarked = c.finishedTiles.map Tile.unmarked) :
    Holds c d := by
  refine ⟨map_label_of_unmarked htiles, map_label_of_unmarked hfinished, fun h t ht => ?_⟩
  have hmem : t.unmarked ∈ c.finishedTiles.map Tile.unmarked := hfinished ▸ List.mem_map_of_mem ht
  obtain ⟨u, hu, heq⟩ := List.mem_map.mp hmem
  exact (congrArg Tile.status heq).symm.trans (h u hu)

theorem Frame.holds (h : Frame c d) : Holds c d := .of_unmarked h.tiles h.finishedTiles

theorem Executed.holds {inst : Instruction} {write : Bool} (h : Executed config inst write c d) :
    Holds c d := .of_unmarked h.tiles h.finishedTiles

/-- A tile has lost instructions. -/
theorem map_label_set {l : List Tile} {i : Nat} {t : Tile} (ht : l[i]? = some t)
    (insts : List Instruction) :
    (l.set i { t with instructions := insts }).map Tile.label = l.map Tile.label := by
  obtain ⟨hlt, rfl⟩ := List.getElem?_eq_some_iff.mp ht
  rw [List.map_set]
  apply List.ext_getElem (by simp)
  intro j hj hj'
  rw [List.getElem_set]
  split
  · rename_i hij
    subst hij
    rw [List.getElem_map]
    rfl
  · rfl

theorem handlePipelines_holds (h : handlePipelines config c = some d) : Holds c d := by
  apply handlePipelines_induction (P := Holds c) ?_ ?_ ?_ ?_ (Holds.refl c) h
  · exact fun _ _ hc hframe => hc.trans hframe.holds
  · exact fun _ _ _ hc _ _ _ hex => hc.trans hex.holds
  · exact fun _ _ _ hc _ => hc.trans (.of_unmarked rfl rfl)
  · exact fun _ _ _ hc _ _ _ hex => hc.trans hex.holds

theorem issueInstructions_holds (h : issueInstructions config c = some d) : Holds c d := by
  have hticked : Holds c { c with coreCycle := c.coreCycle + 1 } := .of_unmarked rfl rfl
  unfold issueInstructions at h
  refine issueFrom_induction (P := Holds c) ?_ ?_ hticked h
  · intro e i t inst insts he ht _
    exact he.trans ⟨map_label_set ht _, rfl, fun h => h⟩
  · intro e i t inst insts q he ht _ hq
    cases hq <;> exact he.trans ⟨map_label_set ht _, rfl, fun h => h⟩

theorem retire_held (c : Core) : c.retire.held.Perm c.held := by
  rcases retire_cases c with heq | ⟨i, t, -, ht, -, heq⟩
  · rw [heq]
  · obtain ⟨hlt, rfl⟩ := List.getElem?_eq_some_iff.mp ht
    rw [heq]
    unfold held
    have hmoved : ((c.tiles.eraseIdx i ++ (c.finishedTiles ++ [finishTile c c.tiles[i]])).map
        Tile.label).Perm ((c.tiles[i] :: c.tiles.eraseIdx i ++ c.finishedTiles).map Tile.label) := by
      rw [← List.append_assoc, List.map_append, List.cons_append, List.map_cons]
      exact List.perm_append_singleton _ _
    refine hmoved.trans (.map _ ?_)
    exact (List.getElem_cons_eraseIdx_perm hlt).append_right _

theorem retire_finished (h : c.Finished) : c.retire.Finished := by
  rcases retire_cases c with heq | ⟨i, t, -, -, -, heq⟩
  · rwa [heq]
  · rw [heq]
    intro u hu
    rcases List.mem_append.mp hu with hu | hu
    · exact h u hu
    · obtain rfl := List.mem_singleton.mp hu
      rfl

theorem cycle_holds (h : cycle config c = some d) : ∃ e, Holds c e ∧ d = e.retire := by
  obtain ⟨e, hbefore, h⟩ := Option.bind_eq_some_iff.mp h
  obtain rfl := Option.some.inj h
  refine ⟨e, ?_, rfl⟩
  unfold beforeRetirement at hbefore
  split at hbefore
  · cases hbefore
  · obtain ⟨f, hf, hbefore⟩ := Option.bind_eq_some_iff.mp hbefore
    exact (handlePipelines_holds hf).trans (issueInstructions_holds hbefore)

/-- A cycle changes none of the tiles that a core holds. -/
theorem cycle_held (h : cycle config c = some d) : d.held.Perm c.held := by
  obtain ⟨e, he, rfl⟩ := cycle_holds h
  exact (retire_held e).trans (.of_eq he.held)

theorem cycle_finished (h : cycle config c = some d) (hc : c.Finished) : d.Finished := by
  obtain ⟨e, he, rfl⟩ := cycle_holds h
  exact retire_finished (he.finished hc)

/-- `Core::issue` adds the tile. -/
theorem issue_held (c : Core) (op : Tile) : (c.issue op).held.Perm (op.label :: c.held) := by
  have hlabel : (c.assignBuffers op).label = op.label := by
    unfold assignBuffers
    split
    rfl
  have hfinish : ({ c.assignBuffers op with status := .FINISH } : Tile).label = op.label := hlabel
  unfold held issue
  by_cases hskip : op.skip = true
  · simp only [hskip, if_true]
    rw [← List.append_assoc, List.map_append, List.map_singleton, hfinish]
    exact List.perm_append_singleton _ _
  · simp only [hskip, Bool.false_eq_true, if_false]
    rw [List.append_assoc, List.map_append, List.singleton_append, List.map_cons, hlabel,
      List.map_append]
    exact List.perm_middle

theorem issue_finished {op : Tile} (h : c.Finished) : (c.issue op).Finished := by
  unfold issue
  by_cases hskip : op.skip = true
  · simp only [hskip, if_true]
    intro t ht
    rcases List.mem_append.mp ht with ht | ht
    · exact h t ht
    · obtain rfl := List.mem_singleton.mp ht
      rfl
  · simp only [hskip, Bool.false_eq_true, if_false]
    exact h

/-- `Core::pop_finished_tile` takes a finished tile, or there is none. -/
theorem popFinishedTile_held (h : c.Finished) :
    c.popFinishedTile.1.status = .FINISH ∧
      c.held.Perm (c.popFinishedTile.1.label :: c.popFinishedTile.2.held) ∨
    c.popFinishedTile.1.status = .EMPTY ∧ c.finishedTiles = [] ∧
      c.popFinishedTile.2.held = c.held := by
  unfold popFinishedTile held
  cases hfinished : c.finishedTiles with
  | nil => exact .inr ⟨rfl, rfl, rfl⟩
  | cons t rest =>
    refine .inl ⟨h t (hfinished ▸ List.mem_cons_self), ?_⟩
    rw [List.map_append, List.map_cons]
    simp

theorem popFinishedTile_finished (h : c.Finished) : c.popFinishedTile.2.Finished :=
  fun t ht => h t (List.mem_of_mem_tail ht)

theorem pushMemoryResponse_holds {response : MemoryAccess}
    (h : c.pushMemoryResponse response = some d) : Holds c d := (pushMemoryResponse_frame h).holds

end Core

end OnnxSim
