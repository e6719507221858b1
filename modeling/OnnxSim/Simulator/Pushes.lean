import OnnxSim.Cache.BlockSized
import OnnxSim.Core.Answers
import OnnxSim.Simulator.Banked
import OnnxSim.Simulator.Conservation

/-!
# What the DRAM is asked for

`DramRamulator2::push` asserts that a request begins at a multiple of `dram_req_size` and has this
size. An access of a core is as large as its whole instruction, and a bank asks for blocks of 128
bytes, and for a large object in one access. So without L2 the assertions hold throughout the runs of
instructions of one aligned chunk, and with L2 where a chunk is a block and no bank opens a large
object (`BankedSystem.pushes_asserted`).
-/

namespace OnnxSim

variable {config : SimulationConfig} {m : MemoryAccess}

/-- Each access that the instruction makes is one aligned request of the DRAM. -/
def Instruction.OneRequest (config : SimulationConfig) (k : Instruction) : Prop :=
  Core.isMemory k.opcode = true → ∀ a ∈ k.srcAddrs,
    config.dramReqSize ∣ (a + k.baseAddr).toNat ∧ Core.objSize config k = config.dramReqSize

-- a search for an instance would go through all addresses
instance (config : SimulationConfig) (k : Instruction) : Decidable (k.OneRequest config) :=
  decidable_of_iff (Core.isMemory k.opcode = true → k.srcAddrs.all (fun a =>
    config.dramReqSize ∣ (a + k.baseAddr).toNat ∧ Core.objSize config k = config.dramReqSize) = true)
    (by simp only [Instruction.OneRequest, List.all_eq_true, decide_eq_true_eq])

theorem Instruction.OneRequest.asserts {k : Instruction} (hreq : config.dramReqSize < 2 ^ 32)
    (h : k.OneRequest config) (hop : Core.isMemory k.opcode = true) {c : Core} {write : Bool}
    (hm : m ∈ Core.accessesOf config c k write) : DramAsserts config m := by
  have haddrs : (Core.accessesOf config c k write).map (·.dramAddress) =
      k.srcAddrs.map (· + k.baseAddr) := Core.accessesOf_map fun _ _ => rfl
  have haddr : m.dramAddress ∈ k.srcAddrs.map (· + k.baseAddr) := haddrs ▸ List.mem_map_of_mem hm
  obtain ⟨a, ha, heq⟩ := List.mem_map.mp haddr
  obtain ⟨halign, hsize⟩ := h hop a ha
  obtain ⟨i, _, -, rfl⟩ := Core.mem_accessesOf hm
  apply (dramAsserts_iff hreq).mpr
  exact ⟨heq ▸ halign, hsize⟩

/-- A block is a request where the DRAM has requests of its size. -/
theorem MemoryAccess.BlockSized.asserts (hblock : config.dramReqSize = BLOCK_SIZE)
    (h : m.BlockSized) : DramAsserts config m := by
  have hreq : config.dramReqSize < 2 ^ 32 := by
    rw [hblock]
    decide
  apply (dramAsserts_iff hreq).mpr
  rw [hblock]
  exact h

/-- What a core may send: with no bank before the DRAM, requests of the DRAM only. -/
def Sendable (config : SimulationConfig) (m : MemoryAccess) : Prop :=
  config.useL2 = false → DramAsserts config m

/-- What a core may execute. -/
def Executable (config : SimulationConfig) (k : Instruction) : Prop :=
  config.useL2 = false → k.OneRequest config

theorem stable_executable : Core.Stable (Executable config) := by
  intro t k hk hl2 hop
  simpa [Core.objSize] using hk hl2 (by simpa using hop)

/-! ## The path without banks -/

namespace MemorySystem

variable {s t : MemorySystem} {core port mem : Nat} {P : MemoryAccess → Prop}

theorem forall_mem_update {f : Nat → List MemoryAccess} {l : List MemoryAccess}
    (h : ∀ i, ∀ m ∈ f i, P m) (hl : ∀ m ∈ l, P m) :
    ∀ i, ∀ m ∈ Function.update f mem l i, P m :=
  forall_update (p := fun _ (l : List MemoryAccess) => ∀ m ∈ l, P m) h hl

theorem forall_requests_update {cores : Nat → Core} {c : Core}
    (h : ∀ i, ∀ m ∈ (cores i).requestQueue, P m) (hc : ∀ m ∈ c.requestQueue, P m) :
    ∀ i, ∀ m ∈ (Function.update cores core c i).requestQueue, P m :=
  forall_update (p := fun _ (c : Core) => ∀ m ∈ c.requestQueue, P m) h hc

theorem forall_mem_snoc {l : List MemoryAccess} (h : ∀ x ∈ l, P x) (hm : P m) :
    ∀ x ∈ l ++ [m], P x := by
  intro x hx
  rcases List.mem_append.mp hx with hx | hx
  · exact h x hx
  · obtain rfl := List.mem_singleton.mp hx
    exact hm

/-- The cores execute and send what they may, and the DRAM has been asked for its own requests. -/
structure Sized (config : SimulationConfig) (s : MemorySystem) : Prop where
  sourced : ∀ i, Core.Sourced config (Executable config) (s.cores i)
  requests : ∀ i, ∀ m ∈ (s.cores i).requestQueue, Sendable config m
  carries : s.icnt.Carries fun _ => Sendable config
  responses : ∀ ch, ∀ m ∈ s.dram.responses ch, Sendable config m
  waiting : ∀ ch, ∀ m ∈ s.dram.waiting ch, DramAsserts config m

theorem sized_init (config : SimulationConfig) (latency : Nat) (layerId fusedOpId : Nat → Nat) :
    Sized config (init config latency layerId fusedOpId) := by
  refine ⟨fun i => ⟨?_, ?_, ?_, ?_⟩, ?_, ⟨?_, ?_⟩, ?_, ?_⟩
  all_goals simp [init, Core.init, SimpleInterconnect.init]

theorem Sized.onCore {act : Core.Act} (hreq : config.dramReqSize < 2 ^ 32) (h : Sized config s)
    (hissues : Core.IssuesOnly (Executable config) act)
    (hact : act = .cycle ∨ act = .popFinishedTile ∨ ∃ op, act = .issue op)
    (ht : onCore config s core act = some t) : Sized config t := by
  obtain ⟨c, hc, ht⟩ := Option.bind_eq_some_iff.mp ht
  obtain rfl := Option.some.inj ht
  obtain ⟨new, hnew⟩ := Core.step_outgoing hc hact
  have hcore : Core.Sourced config (Executable config)
      { s.cores core with nextAccessId := s.nextAccessId } :=
    ⟨(h.sourced core).tiles, (h.sourced core).loads, (h.sourced core).stores,
      (h.sourced core).transfers⟩
  have hsourced := hcore.step stable_executable hissues hc
  refine ⟨forall_update h.sourced hsourced, forall_requests_update h.requests ?_, h.carries,
    h.responses, h.waiting⟩
  intro m hm
  rw [hnew.requestQueue, List.mem_append] at hm
  rcases hm with hm | hm
  · exact h.requests core m hm
  · -- a new access is one of an executed instruction
    have hmem : m ∈ c.transfers.flatMap Prod.snd := by
      rw [hnew.transfers]
      exact List.mem_append_right _ hm
    obtain ⟨tr, htr, hm⟩ := List.mem_flatMap.mp hmem
    obtain ⟨⟨hop, hexec⟩, c₀, write, haccesses⟩ := hsourced.transfers tr htr
    rw [haccesses] at hm
    exact fun hl2 => (hexec hl2).asserts hreq hop hm

theorem Sized.answer {ch i : Nat} (h : Sized config s) (hm : (s.dram.waiting ch)[i]? = some m) :
    Sized config { s with dram := {
      waiting := Function.update s.dram.waiting ch ((s.dram.waiting ch).eraseIdx i)
      responses := Function.update s.dram.responses ch
        (s.dram.responses ch ++ [m.answered]) } } := by
  have hasserts := h.waiting ch m (List.mem_of_getElem? hm)
  exact ⟨h.sourced, h.requests, h.carries,
    forall_mem_update h.responses (forall_mem_snoc (h.responses ch) fun _ => hasserts),
    forall_mem_update h.waiting fun x hx => h.waiting ch x (List.mem_of_mem_eraseIdx hx)⟩

theorem Sized.sendRequest (h : Sized config s)
    (ht : MemorySystem.sendRequest config s core port = some t) : Sized config t := by
  rcases sendRequest_cases ht with rfl | ⟨front, rest, dest, hq, -, rfl⟩
  · exact h
  · have hcore := h.sourced core
    have hfront : Sendable config { front with coreId := BitVec.ofNat 32 core } :=
      h.requests core front (hq ▸ List.mem_cons_self)
    refine ⟨forall_update h.sourced ⟨hcore.tiles, hcore.loads, hcore.stores, hcore.transfers⟩,
      forall_requests_update h.requests ?_, h.carries.push hfront, h.responses, h.waiting⟩
    exact fun m hm => h.requests core m (hq ▸ List.mem_cons_of_mem _ hm)

theorem Sized.takeResponse (h : Sized config s)
    (ht : MemorySystem.takeResponse s core port = some t) : Sized config t := by
  rcases takeResponse_cases ht with rfl | ⟨response, c, icnt, -, hc, hpop, rfl⟩
  · exact h
  · have hframe := Core.pushMemoryResponse_frame hc
    refine ⟨forall_update h.sourced ((h.sourced core).frame hframe),
      forall_requests_update h.requests ?_, h.carries.pop hpop, h.responses, h.waiting⟩
    rw [hframe.requestQueue]
    exact h.requests core

theorem Sized.toDram {full : Nat → Bool} (hl2 : config.useL2 = false) (h : Sized config s)
    (ht : MemorySystem.toDram config s full mem = some t) : Sized config t := by
  rcases toDram_cases ht with rfl | ⟨front, icnt, htop, hpop, rfl⟩
  · exact h
  · have hfront : Sendable config front :=
      h.carries.outBuffers _ front (List.mem_of_mem_head? htop)
    exact ⟨h.sourced, h.requests, h.carries.pop hpop, h.responses,
      forall_mem_update h.waiting (forall_mem_snoc (h.waiting mem) (hfront hl2))⟩

theorem Sized.fromDram (h : Sized config s)
    (ht : MemorySystem.fromDram config s mem = some t) : Sized config t := by
  rcases fromDram_cases ht with rfl | ⟨front, rest, dest, hres, -, rfl⟩
  · exact h
  · have hfront := h.responses mem front (hres ▸ List.mem_cons_self)
    exact ⟨h.sourced, h.requests, h.carries.push hfront, forall_mem_update h.responses fun x hx =>
      h.responses mem x (hres ▸ List.mem_cons_of_mem _ hx), h.waiting⟩

theorem Sized.cycle (h : Sized config s) : Sized config { s with icnt := s.icnt.cycle } :=
  ⟨h.sourced, h.requests, h.carries.cycle, h.responses, h.waiting⟩

/-- Without L2 the tick of the interconnect pushes requests of the DRAM. -/
theorem Sized.icntTick {full : Nat → Bool} (hl2 : config.useL2 = false) (h : Sized config s)
    (ht : MemorySystem.icntTick config s full = some t) : Sized config t := by
  obtain ⟨s₁, h₁, ht⟩ := Option.bind_eq_some_iff.mp ht
  obtain ⟨s₂, h₂, ht⟩ := Option.bind_eq_some_iff.mp ht
  obtain rfl := Option.some.inj ht
  have hports : Sized config s₁ :=
    ports_induction (fun _ _ _ _ hs _ _ ht => hs.sendRequest ht)
      (fun _ _ _ _ hs _ _ ht => hs.takeResponse ht) h h₁
  have hmemories : Sized config s₂ := by
    refine Loops.foldlM_induction h₂ hports fun s mem _ t hs ht => ?_
    obtain ⟨u, hu, ht⟩ := Option.bind_eq_some_iff.mp ht
    exact (hs.toDram hl2 hu).fromDram ht
  exact hmemories.cycle

end MemorySystem

/-! ## The path through the banks -/

namespace BankedSystem

variable {s t : BankedSystem} {mem : Nat}

/-- The banks queue blocks for the DRAM. -/
structure Sized (config : SimulationConfig) (s : BankedSystem) : Prop where
  base : s.toMemorySystem.Sized config
  based : ∀ mem, (s.banks mem).Based
  blocks : ∀ mem, (s.banks mem).QueuesBlocks

/-- Without L2, a tile that is issued has instructions of one request each; and no bank opens a large
object. -/
def StepSized (config : SimulationConfig) (s : BankedSystem) : Act → Prop
  | .issue _ op => config.useL2 = false → ∀ k ∈ op.instructions, k.OneRequest config
  | .l2 => ∀ mem < config.dramChannels, (s.banks mem).OpensNoLarge .cycle
  | _ => True

theorem Sized.setBank (h : Sized config s) (op : Cache.Op) (hop : (s.banks mem).OpensNoLarge op) :
    Sized config (s.setBank mem ((s.banks mem).step op)) := by
  have hbased := h.based mem
  refine ⟨h.base, MemorySystem.forall_update h.based (hbased.step op),
    MemorySystem.forall_update h.blocks ?_⟩
  exact (Cache.step_queuesBlocks_iff hbased.sets hbased.slots hbased.bases (h.blocks mem) op).mpr hop

theorem Sized.pushDram (h : Sized config s) (hm : DramAsserts config m) :
    Sized config (s.pushDram mem m) := by
  have hwaiting := MemorySystem.forall_mem_snoc (h.base.waiting mem) hm
  exact ⟨⟨h.base.sourced, h.base.requests, h.base.carries, h.base.responses,
    MemorySystem.forall_mem_update h.base.waiting hwaiting⟩, h.based, h.blocks⟩

theorem Sized.toBank (h : Sized config s) (ht : toBank config s mem = some t) : Sized config t := by
  unfold BankedSystem.toBank at ht
  dsimp only at ht
  split at ht
  · exact Option.some.inj ht ▸ h
  · obtain ⟨icnt, hpop, ht⟩ := Option.bind_eq_some_iff.mp ht
    obtain rfl := Option.some.inj ht
    have hpopped : Sized config { s with icnt := icnt } :=
      ⟨⟨h.base.sourced, h.base.requests, h.base.carries.pop hpop, h.base.responses,
        h.base.waiting⟩, h.based, h.blocks⟩
    exact hpopped.setBank (.pushRequest _) trivial

theorem Sized.missToDram (hblock : config.dramReqSize = BLOCK_SIZE) (h : Sized config s)
    (full : Nat → Bool) (mem : Nat) : Sized config (s.missToDram full mem) := by
  unfold BankedSystem.missToDram
  split
  · exact h
  · rename_i miss rest hq
    split
    · exact h
    · have hmiss : miss.BlockSized :=
        h.blocks mem miss (List.mem_append_left _ (hq ▸ List.mem_cons_self))
      exact (h.pushDram (hmiss.asserts hblock)).setBank .popMissRequest trivial

theorem Sized.wbToDram (hblock : config.dramReqSize = BLOCK_SIZE) (h : Sized config s)
    (full : Nat → Bool) (mem : Nat) : Sized config (s.wbToDram full mem) := by
  unfold BankedSystem.wbToDram
  split
  · exact h
  · rename_i wb rest hq
    split
    · exact h
    · have hwb : wb.BlockSized :=
        h.blocks mem wb (List.mem_append_right _ (hq ▸ List.mem_cons_self))
      exact (h.pushDram (hwb.asserts hblock)).setBank .popWbRequest trivial

theorem Sized.dramToBank (h : Sized config s) : Sized config (s.dramToBank mem) := by
  unfold BankedSystem.dramToBank
  split
  · exact h
  · rename_i resp rest hres
    have hpopped : Sized config { s with dram := { s.dram with
        responses := Function.update s.dram.responses mem rest } } := by
      have hrest : ∀ x ∈ rest, Sendable config x :=
        fun x hx => h.base.responses mem x (hres ▸ List.mem_cons_of_mem _ hx)
      exact ⟨⟨h.base.sourced, h.base.requests, h.base.carries,
        MemorySystem.forall_mem_update h.base.responses hrest, h.base.waiting⟩, h.based, h.blocks⟩
    exact hpopped.setBank (.pushMemoryResponse resp) trivial

theorem Sized.fromBank (hl2 : config.useL2 = true) (h : Sized config s)
    (ht : fromBank config s mem = some t) : Sized config t := by
  unfold BankedSystem.fromBank at ht
  dsimp only at ht
  split at ht
  · exact Option.some.inj ht ▸ h
  · rename_i resp rest hq
    split at ht
    · exact Option.some.inj ht ▸ h
    · simp only [SimpleInterconnect.isFull, Bool.false_eq_true, if_false] at ht
      obtain ⟨dest, -, ht⟩ := Option.bind_eq_some_iff.mp ht
      obtain rfl := Option.some.inj ht
      have hresp : Sendable config resp := by
        intro hno
        rw [hl2] at hno
        cases hno
      have hsent : Sized config { s with
          icnt := s.icnt.push (config.numCores * config.icntInjectionPortsPerCore + mem) dest
            resp } :=
        ⟨⟨h.base.sourced, h.base.requests, h.base.carries.push hresp, h.base.responses,
          h.base.waiting⟩, h.based, h.blocks⟩
      exact hsent.setBank .popResponse trivial

theorem Sized.bank {full fullWb : Nat → Bool} (hl2 : config.useL2 = true)
    (hblock : config.dramReqSize = BLOCK_SIZE) (h : Sized config s)
    (ht : bank config s full fullWb mem = some t) : Sized config t := by
  obtain ⟨u, hu, ht⟩ := Option.bind_eq_some_iff.mp ht
  have hpushed := ((h.toBank hu).missToDram hblock full mem).wbToDram hblock fullWb mem
  exact hpushed.dramToBank.fromBank hl2 ht

theorem Sized.icntTick {full fullWb : Nat → Bool}
    (hblock : config.useL2 = true → config.dramReqSize = BLOCK_SIZE) (h : Sized config s)
    (ht : icntTick config s full fullWb = some t) : Sized config t := by
  unfold BankedSystem.icntTick at ht
  split at ht
  · rename_i hl2
    obtain ⟨base, hbase, ht⟩ := Option.bind_eq_some_iff.mp ht
    obtain ⟨u, hu, ht⟩ := Option.bind_eq_some_iff.mp ht
    obtain rfl := Option.some.inj ht
    have hports : base.Sized config :=
      MemorySystem.ports_induction (fun _ _ _ _ hs _ _ ht => hs.sendRequest ht)
        (fun _ _ _ _ hs _ _ ht => hs.takeResponse ht) h.base hbase
    have hbanks : Sized config u := by
      refine Loops.foldlM_induction hu (P := Sized config) ⟨hports, h.based, h.blocks⟩ ?_
      exact fun s mem _ t hs ht => hs.bank hl2 (hblock hl2) ht
    exact ⟨hbanks.base.cycle, hbanks.based, hbanks.blocks⟩
  · rename_i hl2
    obtain ⟨base, hbase, ht⟩ := Option.bind_eq_some_iff.mp ht
    obtain rfl := Option.some.inj ht
    exact ⟨h.base.icntTick (Bool.eq_false_iff.mpr hl2) hbase, h.based, h.blocks⟩

theorem Sized.l2Tick (h : Sized config s)
    (hsmall : ∀ mem < config.dramChannels, (s.banks mem).OpensNoLarge .cycle)
    (ht : l2Tick config s = some t) : Sized config t := by
  unfold BankedSystem.l2Tick at ht
  split at ht
  · obtain rfl := Option.some.inj ht
    have hcycled : ∀ mem l2, l2 = (if mem < config.dramChannels then (s.banks mem).cycle
        else s.banks mem) → l2.Based ∧ l2.QueuesBlocks := by
      rintro mem _ rfl
      split
      · rename_i hmem
        have hbased := h.based mem
        exact ⟨hbased.step .cycle, (Cache.step_queuesBlocks_iff hbased.sets hbased.slots
          hbased.bases (h.blocks mem) .cycle).mpr (hsmall mem hmem)⟩
      · exact ⟨h.based mem, h.blocks mem⟩
    exact ⟨h.base, fun mem => (hcycled mem _ rfl).1, fun mem => (hcycled mem _ rfl).2⟩
  · cases ht

theorem Sized.onBase {a : MemorySystem.Act} (h : Sized config s)
    (ha : ∀ t, MemorySystem.step config s.toMemorySystem a = some t → t.Sized config)
    (ht : onBase config s a = some t) : Sized config t := by
  obtain ⟨base, hbase, ht⟩ := Option.bind_eq_some_iff.mp ht
  obtain rfl := Option.some.inj ht
  exact ⟨ha base hbase, h.based, h.blocks⟩

theorem Sized.step {a : Act} (hreq : config.dramReqSize < 2 ^ 32)
    (hblock : config.useL2 = true → config.dramReqSize = BLOCK_SIZE) (h : Sized config s)
    (ha : StepSized config s a) (ht : step config s a = some t) : Sized config t := by
  cases a with
  | issue core op =>
    refine h.onBase (fun base hbase => ?_) ht
    simp only [MemorySystem.step] at hbase
    split at hbase
    · refine h.base.onCore hreq ?_ (.inr (.inr ⟨op, rfl⟩)) hbase
      rintro _ ⟨rfl⟩ k hk hl2
      exact ha hl2 k hk
    · cases hbase
  | popFinishedTile core =>
    refine h.onBase (fun base hbase => ?_) ht
    simp only [MemorySystem.step] at hbase
    split at hbase
    · exact h.base.onCore hreq (fun _ hop => by cases hop) (.inr (.inl rfl)) hbase
    · cases hbase
  | coreCycle core =>
    refine h.onBase (fun base hbase => ?_) ht
    simp only [MemorySystem.step] at hbase
    split at hbase
    · exact h.base.onCore hreq (fun _ hop => by cases hop) (.inl rfl) hbase
    · cases hbase
  | answer channel i =>
    refine h.onBase (fun base hbase => ?_) ht
    simp only [MemorySystem.step] at hbase
    split at hbase
    · cases hbase
    · rename_i m hm
      split at hbase
      · obtain rfl := Option.some.inj hbase
        exact h.base.answer hm
      · cases hbase
  | l2 => exact h.l2Tick ha ht
  | icnt full fullWb => exact h.icntTick hblock ht

theorem sized_init (config : SimulationConfig) (latency : Nat) (layerId fusedOpId : Nat → Nat) :
    Sized config (init config latency layerId fusedOpId) where
  base := MemorySystem.sized_init config latency layerId fusedOpId
  based := fun _ => Cache.based_init
  blocks := fun _ m hm => by simp [init, Cache.init] at hm

/-! ## Runs -/

/-- Every request that the DRAM holds has met its assertions. -/
def PushesAsserted (config : SimulationConfig) (s : BankedSystem) : Prop :=
  ∀ ch, ∀ m ∈ s.dram.waiting ch, DramAsserts config m

/-- In the runs that issue instructions of one aligned request without L2, and in those that open no
large object with an L2 whose blocks are the requests of the DRAM, every access that is pushed into the
DRAM meets its assertions. -/
theorem pushes_asserted (hreq : config.dramReqSize < 2 ^ 32)
    (hblock : config.useL2 = true → config.dramReqSize = BLOCK_SIZE) {latency : Nat}
    {layerId fusedOpId : Nat → Nat} {h : List (BankedSystem × Act)}
    (run : Run config latency layerId fusedOpId h s)
    (hsteps : Machine.EachStep (StepSized config) h) :
    Machine.Always (PushesAsserted config) h s := by
  have hsized : Machine.Always (Sized config) h s :=
    Machine.Run.always_of_eachStep run (sized_init config latency layerId fusedOpId)
      (fun _ _ _ hs ha ht => hs.step hreq hblock ha ht) hsteps
  exact ⟨fun p hp => (hsized.1 p hp).base.waiting, hsized.2.base.waiting⟩

/-- A tile that is issued is one of `GemmWS` on this hardware, with every tensor at a multiple of 256
bytes. -/
def IssuesAligned (config : SimulationConfig) : Act → Prop
  | .issue _ op => ∃ (gemm : GemmWS) (mapping : Mapping) (tiles : List Tile),
      gemm.config = config ∧ (∀ a ∈ gemm.inputs ++ gemm.outputs, 256 ∣ a.toNat) ∧
      gemm.initializeTiles mapping = some tiles ∧ ∃ u ∈ tiles, ∃ ptr coreId fusedOpId,
        op = { u with ptr := ptr, coreId := coreId, fusedOpId := fusedOpId }
  | _ => True

/-- The DRAM has room for both pushes. -/
def icntFree : Act := .icnt (fun _ => false) fun _ => false

/-- The loads of a tile with one element of each tensor. -/
theorem chunkTile_oneRequest :
    ∀ k ∈ (CoreSystem.biasTile 0).instructions, k.OneRequest Core.smallArray := by
  decide +kernel

/-- The tile's three loads are executed and sent. -/
def chunkCalls : List Act :=
  .issue 0 (CoreSystem.biasTile 0) :: List.replicate 4 (.coreCycle 0) ++ List.replicate 4 icntFree

theorem pushes_asserted_chunks : ∃ (h : List (BankedSystem × Act)) (s : BankedSystem),
    Run Core.smallArray 0 (fun _ => 0) (fun _ => 0) h s ∧ (s.dram.waiting 0).length = 3 ∧
      Machine.Always (PushesAsserted Core.smallArray) h s := by
  have hpushed : (chunkCalls.foldlM (step Core.smallArray)
      (init Core.smallArray 0 (fun _ => 0) (fun _ => 0))).map
        (fun s => (s.dram.waiting 0).length) = some 3 := by decide +kernel
  obtain ⟨s, hs, hlength⟩ := Option.map_eq_some_iff.mp hpushed
  obtain ⟨h, hacts, run⟩ := Machine.Run.of_foldlM hs
  have run' : Run Core.smallArray 0 (fun _ => 0) (fun _ => 0) h s := run
  have hcalls : ∀ a ∈ chunkCalls, ∀ s, StepSized Core.smallArray s a := by
    intro a ha
    simp only [chunkCalls, icntFree, List.cons_append, List.mem_cons, List.mem_append,
      List.mem_replicate] at ha
    rcases ha with rfl | ⟨-, rfl⟩ | ⟨-, rfl⟩
    · exact fun _ _ => chunkTile_oneRequest
    · exact fun _ => trivial
    · exact fun _ => trivial
  refine ⟨h, s, run', hlength, pushes_asserted (by decide) (by decide) run' fun p hp => ?_⟩
  exact hcalls p.2 (hacts ▸ List.mem_map_of_mem hp) p.1

/-! ## A load of two chunks -/

/-- One element of a product of 16 terms. -/
def wideGemm : GemmWS where
  config := Core.smallArray
  id := 1
  inputs := [0, 256]
  outputs := [512]
  inputShape := [1, 16]
  weightShape := [16, 1]
  outputShape := [1, 1]
  hasBias := false

def wideMapping : Mapping where
  totalLoop := { C := 16 }
  tileInLoop := { C := 16 }
  tileOutLoop := {}

def wideTiles : List Tile := (wideGemm.initializeTiles wideMapping).getD []

/-- The weights are two chunks, and the first access of their load asks for 64 bytes. -/
def wideCalls : List Act :=
  [.issue 0 (wideTiles.getD 0 {}), .coreCycle 0, .coreCycle 0, icntFree, icntFree]

theorem not_pushes_asserted : ¬ ∀ (config : SimulationConfig) (latency : Nat)
    (layerId fusedOpId : Nat → Nat) (h : List (BankedSystem × Act)) (s : BankedSystem),
    config.dramReqSize < 2 ^ 32 → Run config latency layerId fusedOpId h s →
    Machine.EachStep (fun _ a => IssuesAligned config a) h →
      Machine.Always (PushesAsserted config) h s := by
  intro hall
  have hpushed : (wideCalls.foldlM (step Core.smallArray)
      (init Core.smallArray 0 (fun _ => 0) (fun _ => 0))).map
        (fun s => (s.dram.waiting 0).map (·.size)) = some [64] := by decide +kernel
  obtain ⟨s, hs, hsizes⟩ := Option.map_eq_some_iff.mp hpushed
  obtain ⟨h, hacts, run⟩ := Machine.Run.of_foldlM hs
  have run' : Run Core.smallArray 0 (fun _ => 0) (fun _ => 0) h s := run
  have haligned : Machine.EachStep (fun _ a => IssuesAligned Core.smallArray a) h := by
    intro p hp
    have hmem : p.2 ∈ wideCalls := hacts ▸ List.mem_map_of_mem hp
    simp only [wideCalls, icntFree, List.mem_cons, List.not_mem_nil, or_false] at hmem
    rcases hmem with heq | heq | heq | heq | heq
    · have htiles : wideGemm.initializeTiles wideMapping = some wideTiles := by
        unfold wideTiles
        decide +kernel
      have hone : wideTiles.length = 1 := by decide +kernel
      have haddrs : ∀ a ∈ wideGemm.inputs ++ wideGemm.outputs, 256 ∣ a.toNat := by
        simp [wideGemm]
      have hmem : wideTiles.getD 0 {} ∈ wideTiles := by
        rw [List.getD_eq_getElem _ _ (hone ▸ Nat.one_pos)]
        exact List.getElem_mem _
      rw [heq]
      exact ⟨wideGemm, wideMapping, wideTiles, rfl, haddrs, htiles, _, hmem, _, _, _, rfl⟩
    all_goals
      rw [heq]
      trivial
  obtain ⟨m, hm⟩ := List.length_eq_one_iff.mp
    (show (s.dram.waiting 0).length = 1 by rw [← List.length_map (·.size), hsizes]; rfl)
  rw [hm, List.map_singleton, List.cons.injEq] at hsizes
  have hsize := ((hall _ _ _ _ h s (by decide) run' haligned).2 0 m (hm ▸ List.mem_cons_self)).2
  rw [hsizes.1] at hsize
  cases hsize

end BankedSystem

end OnnxSim
