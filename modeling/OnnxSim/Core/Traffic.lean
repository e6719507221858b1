import OnnxSim.Core.Run

/-!
# Memory traffic

A load or a store of `size` chunks names one source address for each chunk. Its execution makes one
access for each address, and the access is as large as the whole instruction: the traffic is `size`
times what the scratchpad counts as requested. The totals agree exactly when every executed
instruction has one chunk (or its size in bytes wraps around to that of one chunk).
-/

namespace OnnxSim

/-- The instruction has one source address for each of its chunks. -/
def Instruction.Chunked (inst : Instruction) : Prop :=
  inst.size = inst.srcAddrs.length ∧ 1 ≤ inst.size

namespace Core

/-- The opcodes that access the memory. -/
def isMemory (o : Opcode) : Bool := o = .MOVIN || isStore o

/-- All instructions of an issued tile satisfy `P`. -/
def IssuesOnly (P : Instruction → Prop) (a : Act) : Prop :=
  ∀ op, a = .issue op → ∀ inst ∈ op.instructions, P inst

/-- `P` does not depend on what the issue loop writes into an instruction. -/
def Stable (P : Instruction → Prop) : Prop := ∀ t inst, P inst → P (prepare t inst)

/-! ## Where the executed instructions come from -/

/-- Every instruction in the core satisfies `P`, and every executed one made the accesses of
`accessesOf`. -/
structure Sourced (config : SimulationConfig) (P : Instruction → Prop) (c : Core) : Prop where
  tiles : ∀ t ∈ c.tiles, ∀ inst ∈ t.instructions, P inst
  loads : ∀ inst ∈ c.ldInstQueue, inst.opcode = .MOVIN ∧ P inst
  stores : ∀ inst, some inst ∈ c.stInstQueue → isStore inst.opcode ∧ P inst
  transfers : ∀ tr ∈ c.transfers, (isMemory tr.1.opcode ∧ P tr.1) ∧
    ∃ c₀ write, tr.2 = accessesOf config c₀ tr.1 write

variable {config : SimulationConfig} {P : Instruction → Prop} {c d : Core}

theorem instructions_of_unmarked {l l' : List Tile}
    (h : l'.map Tile.unmarked = l.map Tile.unmarked)
    (hl : ∀ t ∈ l, ∀ inst ∈ t.instructions, P inst) :
    ∀ t ∈ l', ∀ inst ∈ t.instructions, P inst := by
  intro t ht
  have hmem : t.unmarked ∈ l.map Tile.unmarked := h ▸ List.mem_map_of_mem ht
  obtain ⟨u, hu, heq⟩ := List.mem_map.mp hmem
  have hinsts : t.instructions = u.instructions := (congrArg Tile.instructions heq).symm
  rw [hinsts]
  exact hl u hu

theorem Sourced.frame (h : Sourced config P c) (hf : Frame c d) : Sourced config P d where
  tiles := instructions_of_unmarked hf.tiles h.tiles
  loads := hf.ldInstQueue ▸ h.loads
  stores := hf.stInstQueue ▸ h.stores
  transfers := hf.transfers ▸ h.transfers

theorem Sourced.executed {inst : Instruction} {write : Bool} (h : Sourced config P c)
    (hex : Executed config inst write c d) (hinst : isMemory inst.opcode ∧ P inst)
    (hld : ∀ i ∈ d.ldInstQueue, i ∈ c.ldInstQueue) (hst : ∀ i ∈ d.stInstQueue, i ∈ c.stInstQueue) :
    Sourced config P d where
  tiles := instructions_of_unmarked hex.tiles h.tiles
  loads := fun i hi => h.loads i (hld i hi)
  stores := fun i hi => h.stores i (hst _ hi)
  transfers := by
    intro tr htr
    rw [hex.transfers, List.mem_append, List.mem_singleton] at htr
    rcases htr with htr | rfl
    · exact h.transfers tr htr
    · exact ⟨hinst, c, write, rfl⟩

theorem Sourced.handlePipelines (h : Sourced config P c)
    (hd : handlePipelines config c = some d) : Sourced config P d := by
  refine handlePipelines_induction (P := Sourced config P) ?_ ?_ ?_ ?_ h hd
  · exact fun _ _ hc hf => hc.frame hf
  · intro c c' inst hc hop hq hst hex
    have hinst : inst ∈ c.ldInstQueue := hq ▸ List.mem_cons_self
    exact hc.executed hex ⟨by simp [isMemory, hop], (hc.loads inst hinst).2⟩
      (fun i hi => hq ▸ List.mem_cons_of_mem _ hi) (fun i hi => hst ▸ hi)
  · intro c inst rest hc hq
    refine ⟨hc.tiles, hc.loads, fun i hi => hc.stores i ?_, hc.transfers⟩
    rw [hq]
    rcases List.mem_cons.mp hi with heq | hi
    · cases heq
    · exact List.mem_cons_of_mem _ hi
  · intro c c' inst hc hop hq hld hex
    have hinst : some inst ∈ c.stInstQueue := hq ▸ List.mem_cons_self
    exact hc.executed hex ⟨by simp [isMemory, hop], (hc.stores inst hinst).2⟩
      (fun i hi => hld ▸ hi) (fun i hi => hq ▸ List.mem_cons_of_mem _ hi)

/-- Replacing the instructions of one tile. -/
theorem Sourced.set {i : Nat} {insts : List Instruction} (h : Sourced config P c) (t : Tile)
    (hinsts : ∀ inst ∈ insts, P inst) :
    ∀ u ∈ c.tiles.set i { t with instructions := insts }, ∀ inst ∈ u.instructions, P inst := by
  intro u hu
  rcases List.mem_or_eq_of_mem_set hu with hu | rfl
  · exact h.tiles u hu
  · exact hinsts

theorem Sourced.issueFrom (hP : Stable P) {order : List Nat} (h : Sourced config P c)
    (hd : issueFrom config c order = some d) : Sourced config P d := by
  refine issueFrom_induction (P := Sourced config P) ?_ ?_ h hd
  · intro c i t inst insts hc ht hinsts
    have hall := hc.tiles t (List.mem_of_getElem? ht)
    rw [hinsts] at hall
    obtain ⟨hinst, hrest⟩ := List.forall_mem_cons.mp hall
    exact ⟨hc.set t (List.forall_mem_cons.mpr ⟨hP t inst hinst, hrest⟩), hc.loads, hc.stores,
      hc.transfers⟩
  · intro c i t inst insts q hc ht hinsts hq
    have hall := hc.tiles t (List.mem_of_getElem? ht)
    rw [hinsts] at hall
    obtain ⟨hinst, hrest⟩ := List.forall_mem_cons.mp hall
    have hprepared := hP t inst hinst
    cases hq with
    | ld hop _ =>
      refine ⟨hc.set t hrest, fun j hj => ?_, hc.stores, hc.transfers⟩
      rcases List.mem_append.mp hj with hj | hj
      · exact hc.loads j hj
      · obtain rfl := List.mem_singleton.mp hj
        exact ⟨hop, hprepared⟩
    | st hop =>
      refine ⟨hc.set t hrest, hc.loads, fun j hj => ?_, hc.transfers⟩
      rcases List.mem_append.mp hj with hj | hj
      · exact hc.stores j hj
      · obtain rfl := Option.some.inj (List.mem_singleton.mp hj)
        exact ⟨hop, hprepared⟩
    | ex _ _ => exact ⟨hc.set t hrest, hc.loads, hc.stores, hc.transfers⟩

theorem Sourced.step (hP : Stable P) {a : Act} (ha : IssuesOnly P a) (h : Sourced config P c)
    (hd : step config c a = some d) : Sourced config P d := by
  cases a with
  | issue op =>
    obtain rfl := Option.some.inj hd
    have hspec := issue_spec c op
    obtain ⟨op', hop, htiles⟩ := hspec.tiles
    have hnew : ∀ inst ∈ op'.instructions, P inst := hop.instructions ▸ ha op rfl
    refine ⟨fun t ht => ?_, hspec.ldInstQueue ▸ h.loads, hspec.stInstQueue ▸ h.stores,
      hspec.transfers ▸ h.transfers⟩
    rcases htiles with ⟨-, htiles, -⟩ | ⟨-, htiles, -⟩
    · exact h.tiles t (htiles ▸ ht)
    · rw [htiles, List.mem_append, List.mem_singleton] at ht
      rcases ht with ht | rfl
      · exact h.tiles t ht
      · exact hnew
  | cycle =>
    obtain ⟨e, he, hd⟩ := Option.bind_eq_some_iff.mp hd
    obtain rfl := Option.some.inj hd
    have hsourced : Sourced config P e := by
      unfold beforeRetirement at he
      split at he
      · cases he
      · obtain ⟨f, hf, he⟩ := Option.bind_eq_some_iff.mp he
        have hstages := h.handlePipelines hf
        exact Sourced.issueFrom (c := { f with coreCycle := f.coreCycle + 1 }) hP
          ⟨hstages.tiles, hstages.loads, hstages.stores, hstages.transfers⟩ he
    rcases retire_cases e with heq | ⟨i, t, -, -, -, heq⟩
    · rwa [heq]
    · rw [heq]
      exact ⟨fun u hu => hsourced.tiles u (List.mem_of_mem_eraseIdx hu), hsourced.loads,
        hsourced.stores, hsourced.transfers⟩
  | popFinishedTile =>
    obtain rfl := Option.some.inj hd
    exact ⟨h.tiles, h.loads, h.stores, h.transfers⟩
  | popMemoryRequest =>
    obtain ⟨⟨m, d⟩, hp, rfl⟩ := Option.map_eq_some_iff.mp hd
    rw [(popMemoryRequest_eq_some hp).2]
    exact ⟨h.tiles, h.loads, h.stores, h.transfers⟩
  | pushMemoryResponse response => exact h.frame (pushMemoryResponse_frame hd)

/-- In a run that issues only tiles of instructions with `P`. -/
theorem Run.sourced (hP : Stable P) {id layerId fusedOpId : Nat} {h : List (Core × Act)}
    (run : Run config id layerId fusedOpId h c)
    (hissues : Machine.EachStep (fun _ a => IssuesOnly P a) h) : Sourced config P c := by
  refine Machine.Run.invariant_of run ⟨?_, ?_, ?_, ?_⟩
    (fun _ _ _ hc ha hs => hc.step hP ha hs) hissues
  all_goals simp [init]

/-! ## The request queue -/

/-- The accesses that the interconnect has taken from the request queue. -/
def poppedRequests (h : List (Core × Act)) : List MemoryAccess :=
  h.flatMap fun p => match p.2 with
    | .popMemoryRequest => p.1.requestQueue.take 1
    | _ => []

/-- The accesses of the instructions executed between `c` and `d` are at the back of the queue. -/
def Grown (c d : Core) : Prop :=
  ∃ new, d.requestQueue = c.requestQueue ++ new ∧
    d.transfers.flatMap Prod.snd = c.transfers.flatMap Prod.snd ++ new

theorem Grown.of_eq (hq : d.requestQueue = c.requestQueue) (ht : d.transfers = c.transfers) :
    Grown c d := ⟨[], by simp [hq], by simp [ht]⟩

theorem Grown.trans {e : Core} (h₁ : Grown c d) (h₂ : Grown d e) : Grown c e := by
  obtain ⟨new₁, hq₁, ht₁⟩ := h₁
  obtain ⟨new₂, hq₂, ht₂⟩ := h₂
  exact ⟨new₁ ++ new₂, by rw [hq₂, hq₁, List.append_assoc], by rw [ht₂, ht₁, List.append_assoc]⟩

theorem Executed.grown {inst : Instruction} {write : Bool}
    (h : Executed config inst write c d) : Grown c d :=
  ⟨_, h.requestQueue, by simp [h.transfers]⟩

/-- A relation that no change but the execution of a load or a store matters to holds across a cycle, if
it holds across these. -/
theorem cycle_relates {R : Core → Core → Prop} (htrans : ∀ {c d e}, R c d → R d e → R c e)
    (hsame : ∀ {c d : Core}, d.requestQueue = c.requestQueue → d.transfers = c.transfers → R c d)
    (hexec : ∀ {c d x write}, (write = false → x.opcode = .MOVIN) →
      Executed config x write c d → R c d)
    (h : cycle config c = some d) : R c d := by
  obtain ⟨e, he, h⟩ := Option.bind_eq_some_iff.mp h
  obtain rfl := Option.some.inj h
  have hbefore : R c e := by
    unfold beforeRetirement at he
    split at he
    · cases he
    · obtain ⟨f, hf, he⟩ := Option.bind_eq_some_iff.mp he
      have hstages : R c f := by
        refine handlePipelines_induction (P := R c) ?_ ?_ ?_ ?_ (hsame rfl rfl) hf
        · exact fun _ _ hc hframe => htrans hc (hsame hframe.requestQueue hframe.transfers)
        · exact fun _ _ _ hc hop _ _ hex => htrans hc (hexec (fun _ => hop) hex)
        · exact fun _ _ _ hc _ => htrans hc (hsame rfl rfl)
        · exact fun _ _ _ hc _ _ _ hex => htrans hc (hexec (fun h => by cases h) hex)
      have hticked : R c { f with coreCycle := f.coreCycle + 1 } := htrans hstages (hsame rfl rfl)
      refine issueFrom_induction (P := R c) ?_ ?_ hticked he
      · exact fun _ _ _ _ _ hc _ _ => htrans hc (hsame rfl rfl)
      · intro _ _ _ _ _ q hc _ _ hq
        cases hq <;> exact htrans hc (hsame rfl rfl)
  rcases retire_cases e with heq | ⟨i, t, -, -, -, heq⟩
  · rwa [heq]
  · rw [heq]
    exact htrans hbefore (hsame rfl rfl)

theorem cycle_grown (h : cycle config c = some d) : Grown c d :=
  cycle_relates Grown.trans Grown.of_eq (fun _ hex => hex.grown) h

/-- The queue holds what the executed instructions put there and the interconnect has not taken. -/
theorem Run.requests_eq {id layerId fusedOpId : Nat} {h : List (Core × Act)}
    (run : Run config id layerId fusedOpId h c) :
    poppedRequests h ++ c.requestQueue = c.transfers.flatMap Prod.snd := by
  induction run with
  | nil => rfl
  | @snoc h c a d run hstep ih =>
    -- a step that takes nothing from the queue
    have hgrown : ∀ {a d}, poppedRequests [(c, a)] = [] → Grown c d →
        poppedRequests (h ++ [(c, a)]) ++ d.requestQueue = d.transfers.flatMap Prod.snd := by
      rintro a d hnone ⟨new, hq, ht⟩
      have happ : poppedRequests (h ++ [(c, a)]) = poppedRequests h ++ poppedRequests [(c, a)] :=
        List.flatMap_append
      rw [happ, hnone, List.append_nil, hq, ← List.append_assoc, ih, ht]
    cases a with
    | issue op =>
      obtain rfl := Option.some.inj hstep
      have hspec := issue_spec c op
      exact hgrown rfl (.of_eq hspec.requestQueue hspec.transfers)
    | cycle => exact hgrown rfl (cycle_grown hstep)
    | popFinishedTile =>
      obtain rfl := Option.some.inj hstep
      exact hgrown rfl (.of_eq rfl rfl)
    | popMemoryRequest =>
      obtain ⟨⟨m, d⟩, hp, rfl⟩ := Option.map_eq_some_iff.mp hstep
      obtain ⟨hq, heq⟩ := popMemoryRequest_eq_some hp
      have htransfers : d.transfers = c.transfers := by rw [heq]
      have happ : poppedRequests (h ++ [(c, .popMemoryRequest)]) = poppedRequests h ++ [m] := by
        simp [poppedRequests, hq]
      rw [happ, htransfers, ← ih, hq, List.append_assoc]
      rfl
    | pushMemoryResponse response =>
      have hframe := pushMemoryResponse_frame hstep
      exact hgrown rfl (.of_eq hframe.requestQueue hframe.transfers)

/-! ## Bytes -/

/-- The bytes of a list of accesses. -/
def bytes (accesses : List MemoryAccess) : Nat := (accesses.map (·.size)).sum

/-- The bytes that the instructions of the tile at `p` have requested so far. -/
def requestedBytes (c : Core) (p : TilePtr) : Nat :=
  ((c.transfers.filter (·.1.owner = p)).map fun tr => bytes tr.2).sum

/-- The bytes that these instructions move. -/
def movedBytes (config : SimulationConfig) (c : Core) (p : TilePtr) : Nat :=
  ((c.transfers.filter (·.1.owner = p)).map fun tr => tr.1.size * config.dramReqSize).sum

/-- The traffic of a run is the bytes moved: each executed load and store has one access for each
of its source addresses, of `size * dram_req_size` bytes in total, and the totals of each tile
agree. -/
structure TrafficExact (config : SimulationConfig) (h : List (Core × Act)) (c : Core) : Prop where
  queue : poppedRequests h ++ c.requestQueue = c.transfers.flatMap Prod.snd
  addresses : ∀ tr ∈ c.transfers,
    tr.2.map (·.dramAddress) = tr.1.srcAddrs.map (· + tr.1.baseAddr)
  each : ∀ tr ∈ c.transfers, bytes tr.2 = tr.1.size * config.dramReqSize
  tile : ∀ p, requestedBytes c p = movedBytes config c p

/-- In bytes the instruction is as large as one chunk, in the arithmetic of `uint32_t`; for the
sizes that fit into a scratchpad this is an instruction of one chunk. -/
def OneChunk (config : SimulationConfig) (inst : Instruction) : Prop :=
  2 ^ 32 ∣ (inst.size - 1) * config.dramReqSize

/-- What depends on the address only, over the accesses of an instruction. -/
theorem accessesOf_map {β : Type} {inst : Instruction} {write : Bool} {g : MemoryAccess → β}
    {k : AddrType → β} (hg : ∀ n addr, g (accessFor config c inst write n addr) = k addr) :
    (accessesOf config c inst write).map g = inst.srcAddrs.map k := by
  apply List.ext_getElem
  · simp [accessesOf]
  · intro i _ _
    simp [accessesOf, hg]

theorem accessesOf_bytes (c : Core) (inst : Instruction) (write : Bool) :
    bytes (accessesOf config c inst write) = inst.srcAddrs.length * objSize config inst := by
  unfold bytes
  rw [accessesOf_map (k := fun _ => objSize config inst) fun _ _ => rfl, List.map_const',
    List.sum_replicate_nat]

/-- Each of `size` accesses has the size of the whole instruction, taken modulo `2 ^ 32`. -/
theorem mul_objSize_eq_iff (hreq : config.dramReqSize < 2 ^ 32) {inst : Instruction}
    (hsize : 1 ≤ inst.size) :
    inst.size * objSize config inst = inst.size * config.dramReqSize ↔ OneChunk config inst := by
  obtain ⟨n, hn⟩ : ∃ n, inst.size = n + 1 := ⟨inst.size - 1, by omega⟩
  unfold OneChunk objSize
  rw [Nat.mul_right_inj (by omega), hn, Nat.add_sub_cancel, Nat.succ_mul, Nat.dvd_iff_mod_eq_zero]
  omega

/-- For an instruction that fits into 32 bits the criterion speaks of its chunks only. -/
theorem oneChunk_iff {inst : Instruction} (hfits : inst.size * config.dramReqSize < 2 ^ 32)
    (hsize : 1 ≤ inst.size) : OneChunk config inst ↔ inst.size = 1 ∨ config.dramReqSize = 0 := by
  unfold OneChunk
  have hle : (inst.size - 1) * config.dramReqSize ≤ inst.size * config.dramReqSize :=
    Nat.mul_le_mul_right _ (Nat.sub_le _ _)
  constructor
  · intro hdvd
    rcases Nat.mul_eq_zero.mp (Nat.eq_zero_of_dvd_of_lt hdvd (by omega)) with hone | hzero
    · exact .inl (by omega)
    · exact .inr hzero
  · rintro (hone | hzero)
    · simp [hone]
    · simp [hzero]

/-- The scratchpads count chunks of `dram_req_size` bytes throughout a run. -/
theorem Run.dataWidth {id layerId fusedOpId : Nat} {h : List (Core × Act)}
    (run : Run config id layerId fusedOpId h c) :
    ∀ a, (c.buffer a).dataWidth = config.dramReqSize := by
  refine Machine.Run.invariant (P := fun c => ∀ a, (c.buffer a).dataWidth = config.dramReqSize)
    run (fun a => by cases a <;> rfl) ?_
  intro c a d hc hs
  cases a with
  | issue op =>
    obtain rfl := Option.some.inj hs
    exact fun a => ((issue_spec c op).dataWidth a).trans (hc a)
  | cycle =>
    obtain ⟨e, he, hs⟩ := Option.bind_eq_some_iff.mp hs
    obtain rfl := Option.some.inj hs
    have hbefore : ∀ a, (e.buffer a).dataWidth = config.dramReqSize := by
      unfold beforeRetirement at he
      split at he
      · cases he
      · obtain ⟨f, hf, he⟩ := Option.bind_eq_some_iff.mp he
        have hstages : ∀ a, (f.buffer a).dataWidth = config.dramReqSize := by
          refine handlePipelines_induction
            (P := fun c => ∀ a, (c.buffer a).dataWidth = config.dramReqSize) ?_ ?_ ?_ ?_ hc hf
          · exact fun _ _ hc hframe a => (hframe.dataWidth a).trans (hc a)
          · exact fun _ _ _ hc _ _ _ hex a => (hex.dataWidth a).trans (hc a)
          · exact fun _ _ _ hc _ => hc
          · exact fun _ _ _ hc _ _ _ hex a => (hex.dataWidth a).trans (hc a)
        refine issueFrom_induction
          (P := fun c => ∀ a, (c.buffer a).dataWidth = config.dramReqSize)
          (c := { f with coreCycle := f.coreCycle + 1 }) ?_ ?_ hstages he
        · exact fun _ _ _ _ _ hc _ _ => hc
        · intro _ _ _ _ _ q hc _ _ hq
          cases hq <;> exact hc
    rcases retire_cases e with heq | ⟨i, t, -, -, -, heq⟩
    · rwa [heq]
    · rw [heq]
      exact hbefore
  | popFinishedTile =>
    obtain rfl := Option.some.inj hs
    exact hc
  | popMemoryRequest =>
    obtain ⟨⟨m, d⟩, hp, rfl⟩ := Option.map_eq_some_iff.mp hs
    rw [(popMemoryRequest_eq_some hp).2]
    exact hc
  | pushMemoryResponse response =>
    exact fun a => ((pushMemoryResponse_frame hs).dataWidth a).trans (hc a)

/-- An executed load counts `size * dram_req_size` bytes as requested, and its buffer holds them. -/
theorem load_counted {inst : Instruction} {rest : List Instruction}
    (hwidth : (c.buffer inst.toAccum).dataWidth = config.dramReqSize)
    (hq : c.ldInstQueue = inst :: rest) (h : handleLdInstQueue config c = some d) :
    (d.buffer inst.toAccum).bytesRequested =
      (c.buffer inst.toAccum).bytesRequested + inst.size * config.dramReqSize ∧
    inst.size * config.dramReqSize ≤ (c.buffer inst.toAccum).size := by
  unfold handleLdInstQueue at h
  rw [hq] at h
  simp only at h
  split at h
  · obtain ⟨s, hs, h⟩ := Option.bind_eq_some_iff.mp h
    obtain ⟨e, he, h⟩ := Option.bind_eq_some_iff.mp h
    obtain rfl := Option.some.inj h
    obtain ⟨hremain, hcount, -, -⟩ := Sram.prefetch_eq_some hs
    rw [hwidth] at hremain hcount
    unfold Core.request at he
    split at he
    · cases he
    · obtain rfl := Option.some.inj he
      refine ⟨?_, (Nat.mul_le_mul_right _ (Nat.le_add_left _ _)).trans hremain⟩
      rw [← hcount]
      cases inst.toAccum <;> rfl
  · cases h

theorem stable_chunked :
    Stable fun inst => isMemory inst.opcode → inst.Chunked := by
  intro t inst hinst
  simpa [Instruction.Chunked] using hinst

/-- Over every run of a core whose tiles load and store with one source address for each chunk, the
traffic is the bytes moved exactly when every executed load and store has one chunk. -/
theorem traffic_exact_iff (hreq : config.dramReqSize < 2 ^ 32) {id layerId fusedOpId : Nat}
    {h : List (Core × Act)} (run : Run config id layerId fusedOpId h c)
    (hissues : Machine.EachStep
      (fun _ a => IssuesOnly (fun inst => isMemory inst.opcode → inst.Chunked) a) h) :
    TrafficExact config h c ↔ ∀ tr ∈ c.transfers, OneChunk config tr.1 := by
  have hsourced := run.sourced stable_chunked hissues
  have hbytes : ∀ tr ∈ c.transfers, (bytes tr.2 = tr.1.size * config.dramReqSize ↔
      OneChunk config tr.1) := by
    intro tr htr
    obtain ⟨⟨hmem, hchunked⟩, c₀, write, haccesses⟩ := hsourced.transfers tr htr
    obtain ⟨hlength, hsize⟩ := hchunked hmem
    rw [haccesses, accessesOf_bytes, ← hlength]
    exact mul_objSize_eq_iff hreq hsize
  constructor
  · intro hexact tr htr
    exact (hbytes tr htr).mp (hexact.each tr htr)
  · intro hone
    have heach : ∀ tr ∈ c.transfers, bytes tr.2 = tr.1.size * config.dramReqSize :=
      fun tr htr => (hbytes tr htr).mpr (hone tr htr)
    refine ⟨run.requests_eq, ?_, heach, ?_⟩
    · intro tr htr
      obtain ⟨-, c₀, write, haccesses⟩ := hsourced.transfers tr htr
      rw [haccesses]
      exact accessesOf_map fun _ _ => rfl
    · intro p
      unfold requestedBytes movedBytes
      congr 1
      apply List.map_congr_left
      intro tr htr
      exact heach tr (List.mem_of_mem_filter htr)

/-- A load of two chunks. -/
def twoChunkLoad : Instruction :=
  { opcode := .MOVIN, destAddr := SPAD_BASE, size := 2, srcAddrs := [0, 32] }

def twoChunkConfig : SimulationConfig :=
  { numCores := 1
    coreConfig := fun _ => { coreWidth := 8, coreHeight := 8, spadSize := 192, accumSpadSize := 192 }
    dramChannels := 1
    dramReqSize := 32 }

/-- The load is issued in the first cycle and executed in the second. -/
def loadCalls (inst : Instruction) : List Act :=
  [.issue { status := .INITIALIZED, instructions := [inst] }, .cycle, .cycle]

theorem chunked_of_loadCalls {inst : Instruction} {h : List (Core × Act)}
    (hacts : h.map Prod.snd = loadCalls inst) (hinst : inst.Chunked) :
    Machine.EachStep
      (fun _ a => IssuesOnly (fun inst => isMemory inst.opcode → inst.Chunked) a) h := by
  intro p hp op hop i hi _
  have hmem : p.2 ∈ loadCalls inst := hacts ▸ List.mem_map_of_mem hp
  rw [hop] at hmem
  simp only [loadCalls, List.mem_cons, Act.issue.injEq, reduceCtorEq, List.not_mem_nil,
    or_false] at hmem
  subst hmem
  obtain rfl := List.mem_singleton.mp hi
  exact hinst

/-- The two accesses of the load ask for 128 bytes; it moves 64. -/
theorem twoChunkLoad_doubles : ¬ ∀ (config : SimulationConfig) (id layerId fusedOpId : Nat)
    (h : List (Core × Act)) (c : Core), config.dramReqSize < 2 ^ 32 →
      Run config id layerId fusedOpId h c →
      Machine.EachStep
        (fun _ a => IssuesOnly (fun inst => isMemory inst.opcode → inst.Chunked) a) h →
      TrafficExact config h c := by
  intro hall
  have hbytes : ((loadCalls twoChunkLoad).foldlM (step twoChunkConfig)
      (init twoChunkConfig 0 0 0)).map
        (fun c => c.transfers.map fun tr => (tr.1.size * twoChunkConfig.dramReqSize, bytes tr.2)) =
      some [(64, 128)] := by decide +kernel
  obtain ⟨c, hc, hbytes⟩ := Option.map_eq_some_iff.mp hbytes
  obtain ⟨h, hacts, run⟩ := Machine.Run.of_foldlM hc
  have hissues : Machine.EachStep
      (fun _ a => IssuesOnly (fun inst => isMemory inst.opcode → inst.Chunked) a) h :=
    chunked_of_loadCalls hacts (by unfold Instruction.Chunked; decide)
  have hexact := hall twoChunkConfig 0 0 0 h c (by decide) run hissues
  have hmem : (64, 128) ∈ c.transfers.map
      fun tr => (tr.1.size * twoChunkConfig.dramReqSize, bytes tr.2) := by simp [hbytes]
  obtain ⟨tr, htr, heq⟩ := List.mem_map.mp hmem
  obtain ⟨hmoved, hrequested⟩ := Prod.mk.inj heq
  have heach := hexact.each tr htr
  omega

/-- The criterion for the run of a one-chunk load. -/
theorem traffic_exact_iff_oneChunk : ∃ (h : List (Core × Act)) (c : Core),
    h.map Prod.snd = loadCalls { twoChunkLoad with size := 1, srcAddrs := [0] } ∧
    Run twoChunkConfig 0 0 0 h c ∧
    (TrafficExact twoChunkConfig h c ↔ ∀ tr ∈ c.transfers, OneChunk twoChunkConfig tr.1) := by
  have hsome : ((loadCalls { twoChunkLoad with size := 1, srcAddrs := [0] }).foldlM
      (step twoChunkConfig) (init twoChunkConfig 0 0 0)).isSome := by decide +kernel
  obtain ⟨c, hc⟩ := Option.isSome_iff_exists.mp hsome
  obtain ⟨h, hacts, run⟩ := Machine.Run.of_foldlM hc
  have run' : Run twoChunkConfig 0 0 0 h c := run
  have hissues : Machine.EachStep
      (fun _ a => IssuesOnly (fun inst => isMemory inst.opcode → inst.Chunked) a) h :=
    chunked_of_loadCalls hacts (by unfold Instruction.Chunked; decide)
  exact ⟨h, c, hacts, run', traffic_exact_iff (by decide) run' hissues⟩

end Core

end OnnxSim
