import OnnxSim.Cache.Home
import OnnxSim.Dram

/-!
# The banks of a simulation

With the L2 enabled there is one bank for each memory channel, and the simulator sends every request
to the bank of the channel of its first byte. A bank asks for whole 128-byte blocks, so a block has
one home only if every chunk that the channel hash looks at is made of whole blocks, and an object
of several blocks carries blocks of other homes into its bank.
-/

namespace OnnxSim

open Cache

/-! ## Requests in one block -/

/-- The two-way agreement of chunks and blocks: neighbouring chunks never share a block. -/
def WholeBlocks (config : SimulationConfig) : Prop :=
  config.dramChannels = 1 ∨ BLOCK_SIZE ∣ config.dramReqSize

theorem getChannelId_one {config : SimulationConfig} (h : config.Accepted)
    (hch : config.dramChannels = 1) (a : AddrType) : getChannelId config a = some 0 := by
  obtain ⟨ch, hsome⟩ := getChannelId_isSome h a
  unfold getChannelId at hsome ⊢
  rw [hch, if_neg (by decide)] at hsome ⊢
  obtain ⟨x, -, hx⟩ := Option.map_eq_some_iff.mp hsome
  rw [hsome, ← hx, Nat.mod_one]

theorem channel_of_sameBlock {config : SimulationConfig} (h : config.Accepted)
    (hw : WholeBlocks config) {a b : AddrType} (hab : SameBlock a b) :
    getChannelId config a = getChannelId config b := by
  rcases hw with hch | ⟨n, hn⟩
  · rw [getChannelId_one h hch, getChannelId_one h hch]
  · refine getChannelId_congr (BitVec.eq_of_toNat_eq ?_)
    unfold SameBlock at hab
    rw [chunk_toNat h, chunk_toNat h, hn, BLOCK_SIZE, ← Nat.div_div_eq_div_mul,
      ← Nat.div_div_eq_div_mul, hab]

/-- The last byte of a chunk and the first byte of the next. -/
theorem exists_straddling {config : SimulationConfig} (h : config.Accepted)
    (hw : ¬ WholeBlocks config) :
    ∃ a b, SameBlock a b ∧ getChannelId config a ≠ getChannelId config b := by
  rw [WholeBlocks, not_or] at hw
  obtain ⟨q, hq, heven, hne⟩ := exists_neighbours h hw.1
  have hreq := h.1
  have hlt := h.2.1
  have hmul : q * config.dramReqSize ≤ 2 * config.dramReqSize := Nat.mul_le_mul_right _ (by omega)
  have hsucc : (q + 1) * config.dramReqSize = q * config.dramReqSize + config.dramReqSize :=
    Nat.succ_mul _ _
  refine ⟨BitVec.ofNat 64 ((q + 1) * config.dramReqSize - 1),
    BitVec.ofNat 64 ((q + 1) * config.dramReqSize), ?_, hne _ _ ?_ (chunk_mul h (by omega))⟩
  · -- an odd multiple of the chunk size is no multiple of the block size either
    have hodd : ¬ BLOCK_SIZE ∣ (q + 1) * config.dramReqSize := by
      intro hd
      refine hw.2 (Nat.Coprime.dvd_of_dvd_mul_left ?_ hd)
      rw [show BLOCK_SIZE = 2 ^ 7 from rfl]
      exact Nat.Coprime.pow_left 7 (Nat.coprime_two_left.mpr (by
        rw [Nat.odd_iff]
        omega))
    unfold SameBlock
    rw [BitVec.toNat_ofNat, BitVec.toNat_ofNat, Nat.mod_eq_of_lt (by omega),
      Nat.mod_eq_of_lt (by omega)]
    unfold BLOCK_SIZE at hodd
    omega
  · apply BitVec.eq_of_toNat_eq
    rw [chunk_toNat h, BitVec.toNat_ofNat, BitVec.toNat_ofNat, Nat.mod_eq_of_lt (by omega),
      Nat.mod_eq_of_lt (show q < 2 ^ 64 by omega), hsucc]
    rw [show q * config.dramReqSize + config.dramReqSize - 1 =
      config.dramReqSize - 1 + q * config.dramReqSize by omega, Nat.add_mul_div_right _ _ hreq,
      Nat.div_eq_of_lt (by omega), Nat.zero_add]

/-- The last block of a chunk and the first block of the next. -/
theorem exists_next_block {config : SimulationConfig} (h : config.Accepted)
    (hw : WholeBlocks config) (hch : config.dramChannels ≠ 1) :
    ∃ a b, blockBase a + BitVec.ofNat 64 BLOCK_SIZE = b ∧
      getChannelId config a ≠ getChannelId config b := by
  obtain ⟨q, hq, -, hne⟩ := exists_neighbours h hch
  obtain ⟨n, hn⟩ := hw.resolve_left hch
  have hreq := h.1
  have hlt := h.2.1
  have hmul : q * config.dramReqSize ≤ 2 * config.dramReqSize := Nat.mul_le_mul_right _ (by omega)
  have hsucc : (q + 1) * config.dramReqSize = q * config.dramReqSize + config.dramReqSize :=
    Nat.succ_mul _ _
  have hblocks : (q + 1) * config.dramReqSize = 128 * ((q + 1) * n) := by
    rw [hn, BLOCK_SIZE]
    ring
  have hge : 128 ≤ config.dramReqSize := by
    unfold BLOCK_SIZE at hn
    omega
  refine ⟨BitVec.ofNat 64 ((q + 1) * config.dramReqSize - 128),
    BitVec.ofNat 64 ((q + 1) * config.dramReqSize), ?_, hne _ _ ?_ (chunk_mul h (by omega))⟩
  · apply BitVec.eq_of_toNat_eq
    rw [BitVec.toNat_add, blockBase_toNat, BitVec.toNat_ofNat, BitVec.toNat_ofNat,
      BitVec.toNat_ofNat, BLOCK_SIZE]
    omega
  · apply BitVec.eq_of_toNat_eq
    rw [chunk_toNat h, BitVec.toNat_ofNat, BitVec.toNat_ofNat, Nat.mod_eq_of_lt (by omega),
      Nat.mod_eq_of_lt (show q < 2 ^ 64 by omega), hsucc]
    rw [show q * config.dramReqSize + config.dramReqSize - 128 =
      config.dramReqSize - 128 + q * config.dramReqSize by omega, Nat.add_mul_div_right _ _ hreq,
      Nat.div_eq_of_lt (by omega), Nat.zero_add]

theorem getDestNode_eq_iff {config : SimulationConfig} {m m' : MemoryAccess}
    (hm : m.request = true) (hm' : m'.request = true) :
    getDestNode config m = getDestNode config m' ↔
      getChannelId config m.dramAddress = getChannelId config m'.dramAddress := by
  unfold getDestNode
  cases getChannelId config m.dramAddress <;> cases getChannelId config m'.dramAddress <;>
    simp [hm, hm']

/-- A one-byte read. -/
def readByte (a : AddrType) : MemoryAccess :=
  { ptr := .heap 0, id := 0, dramAddress := a, size := 1, objectSize := 1, write := false,
    request := true, coreId := 0, bufferId := 0 }

@[simp] theorem readByte_dramAddress (a : AddrType) : (readByte a).dramAddress = a := rfl

@[simp] theorem readByte_request (a : AddrType) : (readByte a).request = true := rfl

theorem sameNode_iff {config : SimulationConfig} (h : config.Accepted) :
    (∀ m m' : MemoryAccess, m.request = true → m'.request = true →
      SameBlock m.dramAddress m'.dramAddress → getDestNode config m = getDestNode config m') ↔
    WholeBlocks config := by
  constructor
  · intro hall
    by_contra hw
    obtain ⟨a, b, hab, hne⟩ := exists_straddling h hw
    have hsame := hall (readByte a) (readByte b) (readByte_request a) (readByte_request b) hab
    rw [getDestNode_eq_iff (readByte_request a) (readByte_request b)] at hsame
    exact hne hsame
  · intro hw m m' hm hm' hmm
    exact (getDestNode_eq_iff hm hm').mpr (channel_of_sameBlock h hw hmm)

/-! ## Runs of the banks -/

namespace Banks

/-- The requests of a bank are those whose destination node is the bank's. -/
def routed (config : SimulationConfig) (i : Nat) : Bank.Act → Bool
  | .pushRequest req => req.request &&
      getDestNode config req == some (config.numCores * config.icntInjectionPortsPerCore + i)
  | _ => true

/-- One bank takes a step. -/
def step (config : SimulationConfig) (s : Nat → Bank) (x : Nat × Bank.Act) : Option (Nat → Bank) :=
  if x.1 < config.dramChannels ∧ routed config x.1 x.2 = true then
    ((s x.1).step x.2).map (Function.update s x.1)
  else none

abbrev Run (config : SimulationConfig) (t : List ((Nat → Bank) × (Nat × Bank.Act)))
    (s : Nat → Bank) : Prop :=
  Machine.Run (Machine.partialDet (step config)) (fun _ => {}) t s

/-- No block is resident in two banks. -/
def OneBank (s : Nat → Bank) : Prop :=
  ∀ i j a, (s i).l2.Resident a → (s j).l2.Resident a → i = j

/-- The block of `a` belongs to bank `i`. -/
def Home (config : SimulationConfig) (i : Nat) (a : AddrType) : Prop :=
  getChannelId config (blockBase a) = some i

theorem home_blockSet (config : SimulationConfig) (i : Nat) : BlockSet (Home config i) := by
  intro a b hab ha
  rwa [Home, ← blockBase_eq_of_sameBlock hab]

/-- A step that pushes a request pushes one whose blocks all belong to the bank. -/
def PushHome (config : SimulationConfig) (_ : Nat → Bank) (x : Nat × Bank.Act) : Prop :=
  ∀ req, x.2 = .pushRequest req → ObjectIn (Home config x.1) req

/-- A step that pushes a request pushes one of at most one block. -/
def PushBlock (_ : Nat → Bank) (x : Nat × Bank.Act) : Prop :=
  ∀ req, x.2 = .pushRequest req → nBlocks req.objectSize ≤ 1

theorem step_eq_some {config : SimulationConfig} {s u : Nat → Bank} {x : Nat × Bank.Act}
    (h : step config s x = some u) :
    x.1 < config.dramChannels ∧ routed config x.1 x.2 = true ∧
      ∃ b, (s x.1).step x.2 = some b ∧ u = Function.update s x.1 b := by
  unfold step at h
  split at h
  · rename_i hx
    obtain ⟨b, hb, rfl⟩ := Option.map_eq_some_iff.mp h
    exact ⟨hx.1, hx.2, b, hb, rfl⟩
  · cases h

/-- What holds of every bank of a simulation: only the banks of channels ever move. -/
def BanksInv (config : SimulationConfig) (s : Nat → Bank) : Prop :=
  ∀ i, Bank.Inv (s i) ∧ (config.dramChannels ≤ i → s i = {})

theorem banksInv_step {config : SimulationConfig} {s u : Nat → Bank} {x : Nat × Bank.Act}
    (hI : BanksInv config s) (h : step config s x = some u) : BanksInv config u := by
  obtain ⟨hx, -, b, hb, rfl⟩ := step_eq_some h
  intro i
  by_cases hi : i = x.1
  · subst hi
    rw [Function.update_self]
    exact ⟨(hI _).1.step hb, fun hle => absurd hx (by omega)⟩
  · rw [Function.update_of_ne hi]
    exact hI i

theorem Run.banksInv {config : SimulationConfig} {t : List ((Nat → Bank) × (Nat × Bank.Act))}
    {s : Nat → Bank} (run : Run config t s) : BanksInv config s :=
  Machine.Run.invariant (P := BanksInv config) run (fun _ => ⟨Bank.inv_init, fun _ => rfl⟩)
    fun _ _ _ hI hs => banksInv_step hI hs

/-- Every bank deals with its own blocks only. -/
def AllHome (config : SimulationConfig) (s : Nat → Bank) : Prop :=
  BanksInv config s ∧ ∀ i, Bank.BlocksIn (Home config i) (s i)

theorem AllHome.oneBank {config : SimulationConfig} {s : Nat → Bank} (h : AllHome config s) :
    OneBank s := by
  intro i j a hi hj
  have h1 := (h.2 i).lines a hi
  have h2 := (h.2 j).lines a hj
  exact Option.some.inj (h1.symm.trans h2)

theorem allHome_step {config : SimulationConfig} {s u : Nat → Bank} {x : Nat × Bank.Act}
    (hI : AllHome config s) (hpush : PushHome config s x) (h : step config s x = some u) :
    AllHome config u := by
  refine ⟨banksInv_step hI.1 h, fun i => ?_⟩
  obtain ⟨-, -, b, hb, rfl⟩ := step_eq_some h
  by_cases hi : i = x.1
  · subst hi
    rw [Function.update_self]
    exact (hI.2 x.1).step (home_blockSet config x.1) (hI.1 x.1).1 hpush hb
  · rw [Function.update_of_ne hi]
    exact hI.2 i

/-- A run that sends every bank only blocks of its own keeps each block in one bank. -/
theorem Run.oneBank_of_home {config : SimulationConfig}
    {t : List ((Nat → Bank) × (Nat × Bank.Act))} {s : Nat → Bank} (run : Run config t s)
    (hC : Machine.EachStep (PushHome config) t) : Machine.Always OneBank t s := by
  have key : Machine.Always (AllHome config) t s :=
    Machine.Run.always_of_eachStep run
      ⟨fun _ => ⟨Bank.inv_init, fun _ => rfl⟩, fun i => Bank.blocksIn_init _⟩
      (fun _ _ _ hI hp hs => allHome_step hI hp hs) hC
  exact ⟨fun p hp => (key.1 p hp).oneBank, key.2.oneBank⟩

/-- Where chunks are made of whole blocks, the block of a routed request belongs to its bank. -/
theorem objectIn_of_routed {config : SimulationConfig} (h : config.Accepted)
    (hw : WholeBlocks config) {i : Nat} {req : MemoryAccess}
    (hr : routed config i (.pushRequest req) = true) (hone : nBlocks req.objectSize ≤ 1) :
    ObjectIn (Home config i) req := by
  have hch : getChannelId config req.dramAddress = some i := by
    simp only [routed, Bool.and_eq_true, beq_iff_eq] at hr
    obtain ⟨hreq, hdest⟩ := hr
    unfold getDestNode at hdest
    obtain ⟨ch, hch, heq⟩ := Option.map_eq_some_iff.mp hdest
    rw [if_pos hreq] at heq
    rw [hch, Option.some.injEq]
    omega
  have hbase : Home config i (blockBase req.dramAddress) := by
    rw [Home, ← hch]
    refine channel_of_sameBlock h hw ?_
    exact (sameBlock_blockBase _).trans (sameBlock_blockBase _)
  refine ⟨hbase, fun k hk => ?_⟩
  rw [show k = 0 by omega]
  simpa using hbase

/-! ## Blocks in two banks -/

/-- Steps of one bank, all routed to it, are steps of the banks. -/
theorem foldlM_lift {config : SimulationConfig} {i : Nat} (hi : i < config.dramChannels)
    {ops : List Bank.Act} (hr : ∀ op ∈ ops, routed config i op = true) {s : Nat → Bank} {b : Bank}
    (h : ops.foldlM Bank.step (s i) = some b) :
    (ops.map fun op => (i, op)).foldlM (step config) s = some (Function.update s i b) := by
  induction ops generalizing s with
  | nil =>
    obtain rfl := Option.some.inj h
    simp
  | cons op ops ih =>
    rw [List.foldlM_cons] at h
    obtain ⟨c, hc, hrest⟩ := Option.bind_eq_some_iff.mp h
    have hstep : step config s (i, op) = some (Function.update s i c) := by
      simp [step, hi, hr op (by simp), hc]
    rw [List.map_cons, List.foldlM_cons, hstep]
    have := ih (fun o ho => hr o (List.mem_cons_of_mem _ ho)) (s := Function.update s i c)
      (by rwa [Function.update_self])
    simpa using this

/-- Two banks that each fetch the block of `b`, from the initial state. -/
theorem exists_two_banks {config : SimulationConfig} {i j : Nat} (hij : i ≠ j)
    (hi : i < config.dramChannels) (hj : j < config.dramChannels) {x y : List Bank.Act}
    (hx : ∀ op ∈ x, routed config i op = true) (hy : ∀ op ∈ y, routed config j op = true)
    {b c : Bank} (hb : x.foldlM Bank.step {} = some b) (hc : y.foldlM Bank.step {} = some c)
    {a : AddrType} (hba : b.l2.Resident a) (hca : c.l2.Resident a) :
    ∃ t s, Run config t s ∧ (∀ p ∈ t, p.2.2 ∈ x ++ y) ∧ ¬ OneBank s := by
  have h1 := foldlM_lift hi hx (s := fun _ => {}) hb
  have h2 := foldlM_lift hj hy (s := Function.update (fun _ => {}) i b)
    (by rwa [Function.update_of_ne (Ne.symm hij)])
  obtain ⟨t1, hact1, run1⟩ := Machine.Run.of_foldlM h1
  obtain ⟨t2, hact2, run2⟩ := Machine.Run.of_foldlM h2
  have hacts : ∀ p ∈ t1 ++ t2, p.2.2 ∈ x ++ y := by
    intro p hp
    rcases List.mem_append.mp hp with hp | hp
    · have hmem := List.mem_map_of_mem (f := Prod.snd) hp
      rw [hact1] at hmem
      obtain ⟨op, hop, heq⟩ := List.mem_map.mp hmem
      rw [← heq]
      exact List.mem_append_left _ hop
    · have hmem := List.mem_map_of_mem (f := Prod.snd) hp
      rw [hact2] at hmem
      obtain ⟨op, hop, heq⟩ := List.mem_map.mp hmem
      rw [← heq]
      exact List.mem_append_right _ hop
  refine ⟨_, _, run1.append run2, hacts, fun hone => hij (hone i j a ?_ ?_)⟩
  · rw [Function.update_of_ne hij, Function.update_self]
    exact hba
  · rw [Function.update_self]
    exact hca

/-- The read of one byte brings its block into the bank. -/
theorem fetchByte_resident (a : AddrType) :
    ∃ b, (Bank.fetch (readByte a)).foldlM Bank.step {} = some b ∧ b.l2.Resident a := by
  have hmiss : ¬ ({} : Bank).l2.Resident (readByte a).dramAddress := init_not_resident a
  obtain ⟨b, hrun, -, -, hfill⟩ := Bank.fetch_idle Bank.idle_init (show nBlocks 1 = 1 by decide)
    (show 1 < LARGE_OBJ_THRESHOLD by decide) hmiss
  refine ⟨b, hrun, ?_⟩
  obtain ⟨e, he, -⟩ := hfill.filled
  rw [readByte_dramAddress, line_congr _ (sameBlock_blockBase a)] at he
  rw [Resident, he]
  rfl

/-- A read of two blocks. -/
def readPair (a : AddrType) : MemoryAccess :=
  { readByte a with size := 256, objectSize := 256 }

@[simp] theorem readPair_dramAddress (a : AddrType) : (readPair a).dramAddress = a := rfl

@[simp] theorem readPair_request (a : AddrType) : (readPair a).request = true := rfl

/-- Both blocks of `readPair` are requested and the second one arrives. -/
def fetchPair (a : AddrType) : List Bank.Act :=
  [.pushRequest (readPair a), .cycle, .popMissRequest, .popMissRequest, .answerMiss 1]

theorem fetchPair_resident {b : Bank} (h : b.Idle) {a : AddrType} (hmiss : ¬ b.l2.Resident a) :
    ∃ b', (fetchPair a).foldlM Bank.step b = some b' ∧
      b'.l2.Resident (blockBase a + BitVec.ofNat 64 BLOCK_SIZE) := by
  have htwo : nBlocks (readPair a).objectSize = 2 := show nBlocks 256 = 2 by decide
  have hsmall : (readPair a).objectSize < LARGE_OBJ_THRESHOLD := show 256 < _ by decide
  obtain ⟨subs, hf⟩ := cycle_fetch h.slots h.l2 hsmall hmiss
  obtain ⟨m, m', rfl⟩ := List.length_eq_two.mp (hf.length.trans htwo)
  have hwf : (b.l2.pushRequest (readPair a)).cycle.SlotsWF :=
    (h.slots.step (.pushRequest (readPair a))).step .cycle
  have hl : (b.l2.pushRequest (readPair a)).cycle.SetsWF := fun si => by
    rw [hf.sets]
    exact h.sets si
  generalize hc : (b.l2.pushRequest (readPair a)).cycle = c at *
  obtain ⟨hid, haddr⟩ := hf.blocks 1 m' rfl
  refine ⟨{ b with
    l2 := c.popMissRequest.popMissRequest.pushMemoryResponse m'.answered, missMem := [m],
    pushed := b.pushed ++ [readPair a] }, ?_, ?_⟩
  · simp [fetchPair, Bank.step, hc, hf.missQ, h.missMem, popMissRequest]
  · have hpop : c.popMissRequest.popMissRequest.SlotsWF :=
      (hwf.step .popMissRequest).step .popMissRequest
    have hact : (c.popMissRequest.popMissRequest.pending m'.answered.id).active = true := by
      rw [MemoryAccess.answered_id, hid, hpop.active]
      show 0 ∈ c.activeSlots
      simp [hf.active]
    have hfilled := pushMemoryResponse_fills (c := c.popMissRequest.popMissRequest) hl hpop hact
    have haddr' : m'.answered.dramAddress = blockBase a + BitVec.ofNat 64 BLOCK_SIZE := by
      show m'.dramAddress = _
      simpa using haddr
    rwa [haddr'] at hfilled

theorem fetch_routed {config : SimulationConfig} {i : Nat} {req : MemoryAccess}
    (hreq : req.request = true) (hi : getChannelId config req.dramAddress = some i) {ops : List Bank.Act}
    (hops : ∀ r, .pushRequest r ∈ ops → r = req) : ∀ op ∈ ops, routed config i op = true := by
  intro op hop
  cases op with
  | pushRequest r =>
    obtain rfl := hops r hop
    simp [routed, getDestNode, hreq, hi]
  | _ => rfl

/-- One block, reached from two chunks, is fetched into two banks. -/
theorem exists_split_block {config : SimulationConfig} (h : config.Accepted)
    (hw : ¬ WholeBlocks config) :
    ∃ t s, Run config t s ∧ Machine.EachStep PushBlock t ∧ ¬ OneBank s := by
  obtain ⟨a, b, hab, hne⟩ := exists_straddling h hw
  obtain ⟨i, hi⟩ := getChannelId_isSome h a
  obtain ⟨j, hj⟩ := getChannelId_isSome h b
  obtain ⟨x, hx, hxa⟩ := fetchByte_resident a
  obtain ⟨y, hy, hyb⟩ := fetchByte_resident b
  have hij : i ≠ j := fun heq => hne (by rw [hi, hj, heq])
  obtain ⟨t, s, run, hacts, hnot⟩ := exists_two_banks hij (getChannelId_lt h hi)
    (getChannelId_lt h hj) (fetch_routed (readByte_request a) hi (by simp [Bank.fetch]))
    (fetch_routed (readByte_request b) hj (by simp [Bank.fetch])) hx hy (a := a) hxa
    (by rwa [Resident, line_congr _ hab])
  refine ⟨t, s, run, fun p hp req hreq => ?_, hnot⟩
  have hmem := hacts p hp
  rw [hreq] at hmem
  have hone : nBlocks 1 ≤ 1 := by decide
  simp only [Bank.fetch, List.cons_append, List.nil_append, List.mem_cons, List.not_mem_nil,
    Bank.Act.pushRequest.injEq, reduceCtorEq, or_false, false_or] at hmem
  rcases hmem with rfl | rfl
  · exact hone
  · exact hone

/-- A bank of one channel can hold a block of another. -/
theorem exists_two_homes {config : SimulationConfig} (h : config.Accepted)
    (hch : config.dramChannels ≠ 1) : ∃ t s, Run config t s ∧ ¬ OneBank s := by
  by_cases hw : WholeBlocks config
  · -- a read of two blocks, the second of them in the next chunk
    obtain ⟨a, b, hab, hne⟩ := exists_next_block h hw hch
    obtain ⟨i, hi⟩ := getChannelId_isSome h a
    obtain ⟨j, hj⟩ := getChannelId_isSome h b
    obtain ⟨x, hx, hxa⟩ := fetchPair_resident Bank.idle_init (init_not_resident a)
    obtain ⟨y, hy, hyb⟩ := fetchByte_resident b
    have hij : i ≠ j := fun heq => hne (by rw [hi, hj, heq])
    obtain ⟨t, s, run, -, hnot⟩ := exists_two_banks hij (getChannelId_lt h hi)
      (getChannelId_lt h hj) (fetch_routed (readPair_request a) hi (by simp [fetchPair]))
      (fetch_routed (readByte_request b) hj (by simp [Bank.fetch])) hx hy (a := b) (hab ▸ hxa) hyb
    exact ⟨t, s, run, hnot⟩
  · obtain ⟨t, s, run, -, hnot⟩ := exists_split_block h hw
    exact ⟨t, s, run, hnot⟩

theorem BanksInv.oneBank {config : SimulationConfig} {s : Nat → Bank} (hI : BanksInv config s)
    (hch : config.dramChannels = 1) : OneBank s := by
  have hzero : ∀ i a, (s i).l2.Resident a → i = 0 := by
    intro i a ha
    by_contra hi
    rw [(hI i).2 (by omega)] at ha
    exact init_not_resident a ha
  intro i j a hi hj
  rw [hzero i a hi, hzero j a hj]

/-- One home for each block. Two requests in one block go to one node exactly when there is a single
channel or the chunks are made of whole blocks, and the same condition decides whether the runs whose
requests lie in one block keep each block in one bank. In general a run does so if every request it
pushes has all its blocks in the bank it goes to; all runs do only with a single channel. -/
theorem one_home_iff {config : SimulationConfig} (h : config.Accepted) :
    ((∀ m m' : MemoryAccess, m.request = true → m'.request = true →
        SameBlock m.dramAddress m'.dramAddress → getDestNode config m = getDestNode config m') ↔
      WholeBlocks config) ∧
    ((∀ t s, Run config t s → Machine.EachStep PushBlock t → Machine.Always OneBank t s) ↔
      WholeBlocks config) ∧
    (∀ t s, Run config t s → Machine.EachStep (PushHome config) t → Machine.Always OneBank t s) ∧
    ((∀ t s, Run config t s → Machine.Always OneBank t s) ↔ config.dramChannels = 1) := by
  refine ⟨sameNode_iff h, ?_, fun t s run hC => run.oneBank_of_home hC, ?_⟩
  · constructor
    · intro hall
      by_contra hw
      obtain ⟨t, s, run, hblock, hnot⟩ := exists_split_block h hw
      exact hnot (hall t s run hblock).2
    · intro hw t s run hC
      refine run.oneBank_of_home fun p hp req hreq => ?_
      obtain ⟨_, u, -, hstep⟩ := run.of_mem hp
      obtain ⟨-, hr, -⟩ := step_eq_some hstep
      rw [hreq] at hr
      exact objectIn_of_routed h hw hr (hC p hp req hreq)
  · constructor
    · intro hall
      by_contra hch
      obtain ⟨t, s, run, hnot⟩ := exists_two_homes h hch
      exact hnot (hall t s run).2
    · intro hch t s run
      have key : Machine.Always (BanksInv config) t s :=
        Machine.Run.always run (fun _ => ⟨Bank.inv_init, fun _ => rfl⟩)
          fun _ _ _ hI hs => banksInv_step hI hs
      exact ⟨fun p hp => (key.1 p hp).oneBank hch, key.2.oneBank hch⟩

/-- Sixteen channels of 32-byte chunks. -/
def smallChunks : SimulationConfig :=
  { numCores := 4, dramChannels := 16, dramReqSize := 32, useL2 := true }

/-- The two halves of a 64-byte piece of one block go to different nodes. -/
theorem smallChunks_split : ¬ ∀ config : SimulationConfig, config.Accepted →
    ∀ m m' : MemoryAccess, m.request = true → m'.request = true →
      SameBlock m.dramAddress m'.dramAddress → getDestNode config m = getDestNode config m' := by
  intro hall
  have hsame := hall smallChunks (by unfold SimulationConfig.Accepted smallChunks; decide)
    (readByte 0) (readByte 32) rfl rfl (by decide)
  revert hsame
  decide

/-- Four channels of 256-byte chunks have whole blocks. -/
theorem one_home_iff_wide :
    let config : SimulationConfig :=
      { numCores := 1, dramChannels := 4, dramReqSize := 256, useL2 := true }
    ∀ t s, Run config t s → Machine.EachStep PushBlock t → Machine.Always OneBank t s := by
  intro config
  have haccepted : config.Accepted := by
    unfold SimulationConfig.Accepted config
    decide
  exact (one_home_iff haccepted).2.1.mpr (.inr (by decide))

end Banks

end OnnxSim
