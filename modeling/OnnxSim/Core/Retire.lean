import OnnxSim.Core.Run

/-!
# Retirement

A running tile whose instructions have all been issued and whose last instruction has finished is
ready: the retirement loop at the end of `Core::cycle` is there to move the oldest such tile to
`_finished_tiles`. The loop looks at the tiles only in the cycles whose number is a multiple of
8000. So a call that finds a ready tile is prompt exactly when its number is such a multiple
(`prompt_retirement_iff`), and every tile that has run finishes at such a cycle
(`finished_at_multiple`).
-/

namespace OnnxSim

namespace Core

/-- Tile `t`, at index `i`, is the oldest of the ready tiles. -/
structure OldestReady (tiles : List Tile) (i : Nat) (t : Tile) : Prop where
  getElem? : tiles[i]? = some t
  ready : t.ready
  oldest : ∀ j < i, ∀ u, tiles[j]? = some u → ¬ u.ready

/-- If the call of `cycle` gets to a retirement loop that finds ready tiles, it retires the oldest
of them. -/
def Prompt (config : SimulationConfig) (c : Core) : Prop :=
  ∀ d i t, beforeRetirement config c = some d → OldestReady d.tiles i t →
    ∃ c', cycle config c = some c' ∧ c'.tiles = d.tiles.eraseIdx i ∧
      c'.finishedTiles = d.finishedTiles ++ [finishTile d t]

/-- The call of `cycle` gets to a retirement loop that finds a ready tile. -/
def ReadyAtRetirement (config : SimulationConfig) (c : Core) : Prop :=
  ∃ d, beforeRetirement config c = some d ∧ ∃ t ∈ d.tiles, t.ready

theorem exists_oldestReady {tiles : List Tile} (h : ∃ t ∈ tiles, t.ready) :
    ∃ i t, OldestReady tiles i t := by
  obtain ⟨t, ht, hready⟩ := h
  obtain ⟨i, hi⟩ := Option.isSome_iff_exists.mp (List.findIdx?_isSome.trans
    (List.any_eq_true.mpr ⟨t, ht, hready⟩))
  obtain ⟨hlt, hfound, hfirst⟩ := List.findIdx?_eq_some_iff_getElem.mp hi
  refine ⟨i, tiles[i], List.getElem?_eq_getElem hlt, hfound, ?_⟩
  intro j hj u hu
  obtain ⟨hjlt, rfl⟩ := List.getElem?_eq_some_iff.mp hu
  exact hfirst j hj

/-! ## One call -/

variable {config : SimulationConfig} {c d : Core}

/-- In a cycle whose number is a multiple of 8000 the oldest ready tile is retired. -/
theorem retire_of_dvd {i : Nat} {t : Tile} (hcycle : d.coreCycle % 8000 = 0)
    (ht : OldestReady d.tiles i t) :
    d.retire = { d with
      tiles := d.tiles.eraseIdx i, finishedTiles := d.finishedTiles ++ [finishTile d t] } := by
  have hfind : d.tiles.findIdx? (fun t => decide (d.coreCycle % 8000 = 0) && t.ready) = some i := by
    obtain ⟨hlt, hi⟩ := List.getElem?_eq_some_iff.mp ht.getElem?
    refine List.findIdx?_eq_some_iff_getElem.mpr ⟨hlt, by simp [hcycle, hi, ht.ready], ?_⟩
    intro j hj
    have hnot := ht.oldest j hj _ (List.getElem?_eq_getElem (hj.trans hlt))
    simp [hnot]
  unfold retire
  rw [hfind]
  simp only [ht.getElem?]

/-- In every other cycle no tile is. -/
theorem retire_of_not_dvd (hcycle : d.coreCycle % 8000 ≠ 0) : d.retire = d := by
  have hfind : d.tiles.findIdx? (fun t => decide (d.coreCycle % 8000 = 0) && t.ready) = none := by
    rw [List.findIdx?_eq_none_iff]
    intro t _
    simp [hcycle]
  unfold retire
  rw [hfind]

theorem issueInstructions_coreCycle (h : issueInstructions config c = some d) :
    d.coreCycle = c.coreCycle + 1 := by
  refine issueFrom_induction (P := fun d => d.coreCycle = c.coreCycle + 1) ?_ ?_ rfl h
  · intro d i t inst insts hd _ _
    exact hd
  · intro d i t inst insts q hd _ _ hq
    cases hq <;> exact hd

theorem beforeRetirement_coreCycle (h : beforeRetirement config c = some d) :
    d.coreCycle = c.coreCycle + 1 := by
  unfold beforeRetirement at h
  split at h
  · cases h
  · obtain ⟨e, he, h⟩ := Option.bind_eq_some_iff.mp h
    have hstages : e.coreCycle = c.coreCycle := by
      refine handlePipelines_induction (P := fun e => e.coreCycle = c.coreCycle) ?_ ?_ ?_ ?_ rfl he
      · exact fun _ _ hc hf => hf.coreCycle.trans hc
      · exact fun _ _ _ hc _ _ _ hex => hex.coreCycle.trans hc
      · exact fun _ _ _ hc _ => hc
      · exact fun _ _ _ hc _ _ _ hex => hex.coreCycle.trans hc
    rw [issueInstructions_coreCycle h, hstages]

theorem cycle_of_beforeRetirement (h : beforeRetirement config c = some d) :
    cycle config c = some d.retire := by
  unfold cycle
  rw [h]
  rfl

/-- A call is prompt exactly when no tile is ready or its number is a multiple of 8000. -/
theorem prompt_iff :
    Prompt config c ↔ (ReadyAtRetirement config c → (c.coreCycle + 1) % 8000 = 0) := by
  constructor
  · rintro hprompt ⟨d, hd, hready⟩
    obtain ⟨i, t, ht⟩ := exists_oldestReady hready
    obtain ⟨c', hc', htiles, -⟩ := hprompt d i t hd ht
    by_contra hcycle
    rw [← beforeRetirement_coreCycle hd] at hcycle
    rw [cycle_of_beforeRetirement hd, retire_of_not_dvd hcycle] at hc'
    obtain rfl := Option.some.inj hc'
    -- the tiles would be as many as before, and one fewer
    have hlt := (List.getElem?_eq_some_iff.mp ht.getElem?).1
    have hlength := congrArg List.length htiles
    rw [List.length_eraseIdx_of_lt hlt] at hlength
    omega
  · intro hready d i t hd ht
    have hcycle := hready ⟨d, hd, t, List.mem_of_getElem? ht.getElem?, ht.ready⟩
    rw [← beforeRetirement_coreCycle hd] at hcycle
    exact ⟨_, cycle_of_beforeRetirement hd, by rw [retire_of_dvd hcycle ht],
      by rw [retire_of_dvd hcycle ht]⟩

/-! ## Runs -/

def Act.isCycle : Act → Bool
  | .cycle => true
  | _ => false

/-- How many times `cycle` has been called. -/
def cycleCalls (h : List (Core × Act)) : Nat := h.countP fun p => p.2.isCycle

theorem step_coreCycle {a : Act} (h : step config c a = some d) :
    d.coreCycle = if a.isCycle then c.coreCycle + 1 else c.coreCycle := by
  cases a with
  | issue op =>
    obtain rfl := Option.some.inj h
    exact (issue_spec c op).coreCycle
  | cycle =>
    obtain ⟨e, he, h⟩ := Option.bind_eq_some_iff.mp h
    obtain rfl := Option.some.inj h
    rcases retire_cases e with hretire | ⟨i, t, -, -, -, hretire⟩
    · rw [hretire, beforeRetirement_coreCycle he]
      rfl
    · have hclock := beforeRetirement_coreCycle he
      rw [hretire]
      exact hclock
  | popFinishedTile =>
    obtain rfl := Option.some.inj h
    rfl
  | popMemoryRequest =>
    obtain ⟨⟨m, d⟩, hp, rfl⟩ := Option.map_eq_some_iff.mp h
    rw [(popMemoryRequest_eq_some hp).2]
    rfl
  | pushMemoryResponse response => exact (pushMemoryResponse_frame h).coreCycle

/-- The cycle counter counts the calls of `cycle`. -/
theorem Run.coreCycle_eq {id layerId fusedOpId : Nat} {h : List (Core × Act)}
    (run : Run config id layerId fusedOpId h c) : c.coreCycle = cycleCalls h := by
  induction run with
  | nil => rfl
  | snoc run hstep ih =>
    rw [step_coreCycle hstep, ih]
    unfold cycleCalls
    rw [List.countP_append, List.countP_singleton]
    split_ifs <;> rfl

/-- In a run, the calls of `cycle` are all prompt exactly when every call that finds a ready tile is
the 8000th, the 16000th, and so on. -/
theorem prompt_retirement_iff {id layerId fusedOpId : Nat} {h : List (Core × Act)}
    (run : Run config id layerId fusedOpId h c) :
    (∀ h₁ c₁ h₂, h = h₁ ++ (c₁, .cycle) :: h₂ → Prompt config c₁) ↔
    ∀ h₁ c₁ h₂, h = h₁ ++ (c₁, .cycle) :: h₂ → ReadyAtRetirement config c₁ →
      8000 ∣ cycleCalls h₁ + 1 := by
  have hnumber : ∀ h₁ c₁ h₂, h = h₁ ++ (c₁, .cycle) :: h₂ →
      (Prompt config c₁ ↔ (ReadyAtRetirement config c₁ → 8000 ∣ cycleCalls h₁ + 1)) := by
    rintro h₁ c₁ h₂ rfl
    have run₁ : Run config id layerId fusedOpId h₁ c₁ := (Machine.Run.split run).1
    rw [prompt_iff, run₁.coreCycle_eq, Nat.dvd_iff_mod_eq_zero]
  constructor
  · intro hprompt h₁ c₁ h₂ heq
    exact (hnumber h₁ c₁ h₂ heq).mp (hprompt h₁ c₁ h₂ heq)
  · intro hready h₁ c₁ h₂ heq
    exact (hnumber h₁ c₁ h₂ heq).mpr (hready h₁ c₁ h₂ heq)

/-- An 8 by 8 array. -/
def smallArray : SimulationConfig :=
  { numCores := 1
    coreConfig := fun _ => { coreWidth := 8, coreHeight := 8, spadSize := 192, accumSpadSize := 192 }
    dramChannels := 1
    dramReqSize := 32 }

/-- A tile that loads weights once. -/
def preloadTile : Tile :=
  { status := .INITIALIZED
    instructions := [{ opcode := .GEMM_PRELOAD, destAddr := ACCUM_SPAD_BASE, computeSize := 8 }] }

def preloadCalls (n : Nat) : List Act := .issue preloadTile :: List.replicate n .cycle

/-- The number of the cycle whose retirement loop finds a ready tile. -/
def readyCycle (config : SimulationConfig) (c : Core) : Option Nat := do
  let d ← beforeRetirement config c
  if d.tiles.any Tile.ready then some d.coreCycle else none

theorem readyCycle_eq_some {n : Nat} (h : readyCycle config c = some n) :
    ReadyAtRetirement config c ∧ c.coreCycle + 1 = n := by
  obtain ⟨d, hd, h⟩ := Option.bind_eq_some_iff.mp h
  split at h
  · rename_i hany
    obtain rfl := Option.some.inj h
    exact ⟨⟨d, hd, List.any_eq_true.mp hany⟩, (beforeRetirement_coreCycle hd).symm⟩
  · cases h

/-- The tile is ready in cycle 39 and is not retired there. -/
theorem preload_not_prompt :
    ¬ ∀ (config : SimulationConfig) (id layerId fusedOpId : Nat) (h : List (Core × Act)) (c : Core),
      Run config id layerId fusedOpId h c →
        ∀ h₁ c₁ h₂, h = h₁ ++ (c₁, .cycle) :: h₂ → Prompt config c₁ := by
  intro hall
  have hready : ((preloadCalls 38).foldlM (step smallArray) (init smallArray 0 0 0)).bind
      (readyCycle smallArray) = some 39 := by decide +kernel
  obtain ⟨c, hc, hready⟩ := Option.bind_eq_some_iff.mp hready
  obtain ⟨⟨d, hd, hmem⟩, hclock⟩ := readyCycle_eq_some hready
  obtain ⟨h, -, run⟩ := Machine.Run.of_foldlM hc
  have run' : Run smallArray 0 0 0 (h ++ [(c, .cycle)]) d.retire :=
    run.snoc (cycle_of_beforeRetirement hd)
  have hcycle := prompt_iff.mp (hall _ _ _ _ _ _ run' h c [] rfl) ⟨d, hd, hmem⟩
  omega

/-- The criterion for the run of that tile over 39 cycles. -/
theorem prompt_retirement_iff_preload : ∃ (h : List (Core × Act)) (c : Core),
    h.map Prod.snd = preloadCalls 39 ∧ Run smallArray 0 0 0 h c ∧
    ((∀ h₁ c₁ h₂, h = h₁ ++ (c₁, .cycle) :: h₂ → Prompt smallArray c₁) ↔
      ∀ h₁ c₁ h₂, h = h₁ ++ (c₁, .cycle) :: h₂ → ReadyAtRetirement smallArray c₁ →
        8000 ∣ cycleCalls h₁ + 1) := by
  have hsome : ((preloadCalls 39).foldlM (step smallArray) (init smallArray 0 0 0)).isSome := by
    decide +kernel
  obtain ⟨c, hc⟩ := Option.isSome_iff_exists.mp hsome
  obtain ⟨h, hacts, run⟩ := Machine.Run.of_foldlM hc
  have run' : Run smallArray 0 0 0 h c := run
  exact ⟨h, c, hacts, run', prompt_retirement_iff run'⟩

/-! ## Finished tiles -/

/-- Tiles run from their start cycle on; those that have run finished at a multiple of 8000. -/
structure Timed (c : Core) : Prop where
  running : ∀ t ∈ c.tiles, t.stat.startCycle ≤ c.coreCycle ∧ ¬ t.skip
  finished : ∀ t ∈ c.finishedTiles, ¬ t.skip → 8000 ∣ t.stat.startCycle + t.stat.cycles

theorem forall_of_unmarked {Q : Tile → Prop} (hQ : ∀ t : Tile, Q t.unmarked ↔ Q t)
    {l l' : List Tile} (h : l'.map Tile.unmarked = l.map Tile.unmarked) (hl : ∀ t ∈ l, Q t) :
    ∀ t ∈ l', Q t := by
  intro t ht
  have hmem : t.unmarked ∈ l.map Tile.unmarked := h ▸ List.mem_map_of_mem ht
  obtain ⟨u, hu, heq⟩ := List.mem_map.mp hmem
  rw [← hQ, ← heq, hQ]
  exact hl u hu

theorem Timed.of_unmarked (h : Timed c) (hclock : d.coreCycle = c.coreCycle)
    (htiles : d.tiles.map Tile.unmarked = c.tiles.map Tile.unmarked)
    (hfinished : d.finishedTiles.map Tile.unmarked = c.finishedTiles.map Tile.unmarked) :
    Timed d where
  running := by
    rw [hclock]
    exact forall_of_unmarked (fun _ => Iff.rfl) htiles h.running
  finished := forall_of_unmarked (fun _ => Iff.rfl) hfinished h.finished

theorem Timed.set {i : Nat} {t : Tile} (h : Timed c) (ht : c.tiles[i]? = some t)
    (insts : List Instruction) :
    ∀ u ∈ c.tiles.set i { t with instructions := insts },
      u.stat.startCycle ≤ c.coreCycle ∧ ¬ u.skip := by
  intro u hu
  rcases List.mem_or_eq_of_mem_set hu with hu | rfl
  · exact h.running u hu
  · exact h.running t (List.mem_of_getElem? ht)

theorem Timed.beforeRetirement (h : Timed c) (hd : beforeRetirement config c = some d) :
    Timed d := by
  unfold Core.beforeRetirement at hd
  split at hd
  · cases hd
  · obtain ⟨e, he, hd⟩ := Option.bind_eq_some_iff.mp hd
    have htimed : Timed e := by
      refine handlePipelines_induction (P := Timed) ?_ ?_ ?_ ?_ h he
      · exact fun _ _ hc hf => hc.of_unmarked hf.coreCycle hf.tiles hf.finishedTiles
      · exact fun _ _ _ hc _ _ _ hex => hc.of_unmarked hex.coreCycle hex.tiles hex.finishedTiles
      · exact fun _ _ _ hc _ => hc.of_unmarked rfl rfl rfl
      · exact fun _ _ _ hc _ _ _ hex => hc.of_unmarked hex.coreCycle hex.tiles hex.finishedTiles
    have hticked : Timed { e with coreCycle := e.coreCycle + 1 } :=
      ⟨fun t ht => ⟨(htimed.running t ht).1.trans (Nat.le_succ _), (htimed.running t ht).2⟩,
        htimed.finished⟩
    refine issueFrom_induction (P := Timed) ?_ ?_ hticked hd
    · intro c i t inst insts hc ht _
      exact ⟨hc.set ht _, hc.finished⟩
    · intro c i t inst insts q hc ht _ hq
      cases hq <;> exact ⟨hc.set ht _, hc.finished⟩

theorem Timed.retire (h : Timed c) : Timed c.retire := by
  rcases retire_cases c with heq | ⟨i, t, hcycle, ht, -, heq⟩
  · rwa [heq]
  · rw [heq]
    refine ⟨fun u hu => h.running u (List.mem_of_mem_eraseIdx hu), fun u hu hskip => ?_⟩
    rcases List.mem_append.mp hu with hu | hu
    · exact h.finished u hu hskip
    · obtain rfl := List.mem_singleton.mp hu
      have hstart := (h.running t (List.mem_of_getElem? ht)).1
      have hsum : t.stat.startCycle + (c.coreCycle - t.stat.startCycle) = c.coreCycle :=
        Nat.add_sub_cancel' hstart
      exact Nat.dvd_of_mod_eq_zero (hsum ▸ hcycle)

theorem Timed.step {a : Act} (h : Timed c) (hd : step config c a = some d) : Timed d := by
  cases a with
  | issue op =>
    obtain rfl := Option.some.inj hd
    have hspec := issue_spec c op
    obtain ⟨op', hop, ⟨hskip, htiles, hfinished⟩ | ⟨hskip, htiles, hfinished⟩⟩ := hspec.tiles
    · refine ⟨?_, fun u hu hnot => ?_⟩
      · rw [htiles, hspec.coreCycle]
        exact h.running
      · rw [hfinished, List.mem_append, List.mem_singleton] at hu
        rcases hu with hu | rfl
        · exact h.finished u hu hnot
        · exact absurd (hop.skip ▸ hskip) hnot
    · refine ⟨fun u hu => ?_, ?_⟩
      · rw [htiles, List.mem_append, List.mem_singleton] at hu
        rw [hspec.coreCycle]
        rcases hu with hu | rfl
        · exact h.running u hu
        · exact ⟨by rw [hop.stat], hop.skip ▸ hskip⟩
      · rw [hfinished]
        exact h.finished
  | cycle =>
    obtain ⟨e, he, hd⟩ := Option.bind_eq_some_iff.mp hd
    obtain rfl := Option.some.inj hd
    exact (h.beforeRetirement he).retire
  | popFinishedTile =>
    obtain rfl := Option.some.inj hd
    exact ⟨h.running, fun u hu => h.finished u (List.mem_of_mem_tail hu)⟩
  | popMemoryRequest =>
    obtain ⟨⟨m, d⟩, hp, rfl⟩ := Option.map_eq_some_iff.mp hd
    rw [(popMemoryRequest_eq_some hp).2]
    exact ⟨h.running, h.finished⟩
  | pushMemoryResponse response =>
    have hframe := pushMemoryResponse_frame hd
    exact h.of_unmarked hframe.coreCycle hframe.tiles hframe.finishedTiles

/-- In every run, a tile that has run is reported finished at a multiple of 8000 cycles. -/
theorem finished_at_multiple {id layerId fusedOpId : Nat} {h : List (Core × Act)}
    (run : Run config id layerId fusedOpId h c) :
    ∀ t ∈ c.finishedTiles, ¬ t.skip → 8000 ∣ t.stat.startCycle + t.stat.cycles := by
  have hinit : Timed (init config id layerId fusedOpId) :=
    ⟨fun t ht => absurd ht List.not_mem_nil, fun t ht => absurd ht List.not_mem_nil⟩
  exact (Machine.Run.invariant run hinit fun _ _ _ hc hs => hc.step hs).finished

end Core

end OnnxSim
