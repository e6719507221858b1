import OnnxSim.Language.Lifecycle
import OnnxSim.Lib.Loops

/-!
# The memory of the caches

`init_request` allocates a key and a value tensor of `_max_seq_length` tokens for each layer of a
request, and resizes them to the length of its sequence; `finish_model` resizes them again. Nothing
compares the two, so a cache stays inside its allocation exactly when the trace row is short enough
(`CacheMemory.Fits`). The addresses come from `allocate_address`, which only goes up.
-/

namespace OnnxSim

/-! ## Memory -/

/-- The bytes from `base` on. -/
structure Region where
  base : Nat
  size : Nat
  deriving Repr, DecidableEq

namespace Region

def Apart (a b : Region) : Prop := a.base + a.size ≤ b.base ∨ b.base + b.size ≤ a.base

instance (a b : Region) : Decidable (a.Apart b) := inferInstanceAs (Decidable (_ ∨ _))

/-- Smaller regions are apart as well. -/
theorem Apart.shrink {a b : Region} {m n : Nat} (h : a.Apart b) (hm : m ≤ a.size)
    (hn : n ≤ b.size) : Apart ⟨a.base, m⟩ ⟨b.base, n⟩ := by
  unfold Apart at h ⊢
  simp only
  omega

theorem Apart.symm {a b : Region} (h : a.Apart b) : b.Apart a := Or.symm h

end Region

/-- The bytes that `Tensor::allocate_tensor` asks for, in `uint32_t` arithmetic. -/
def allocatedSize (precision : Nat) (dims : List Nat) : Nat :=
  dims.foldl (fun size dim => size * dim % 2 ^ 32) 1 * precision % 2 ^ 32

/-- `_size` after `Tensor::resize_tensor`, a 64-bit product. -/
def tensorSize (precision : Nat) (dims : List Nat) : Nat := dims.foldl (· * ·) precision

/-- `allocate_address`: the address, and the next value of `base_addr`. -/
def allocateAddress (base size : Nat) : Nat × Nat :=
  let offset := if base % 256 ≠ 0 then 256 - base % 256 else 0
  let next := base + (size + offset) % 2 ^ 32
  (base + offset, next + (256 - next % 256))

theorem allocateAddress_spec {base : Nat} (h : base % 256 = 0) (size : Nat) :
    (allocateAddress base size).1 = base ∧
      base + size % 2 ^ 32 ≤ (allocateAddress base size).2 ∧
      (allocateAddress base size).2 % 256 = 0 := by
  unfold allocateAddress
  simp only [h, ne_eq, not_true_eq_false, if_false, Nat.add_zero, true_and]
  omega

/-- The parts of the configuration that say how much memory a cache gets. -/
structure CacheConfig where
  lang : LangConfig
  maxSeqLength : Nat
  precision : Nat

namespace CacheConfig

/-- The bytes of a cache tensor, allocated for `_max_dims`. -/
def cacheBytes (config : CacheConfig) : Nat :=
  allocatedSize config.precision [config.maxSeqLength, config.lang.cacheDim]

theorem cacheBytes_lt (config : CacheConfig) : config.cacheBytes < 2 ^ 32 :=
  Nat.mod_lt _ (by decide)

theorem cacheBytes_le (config : CacheConfig) : config.cacheBytes ≤
    config.maxSeqLength * config.lang.cacheDim * config.precision := by
  unfold cacheBytes allocatedSize
  simp only [List.foldl_cons, List.foldl_nil, Nat.one_mul]
  refine Nat.le_trans (Nat.mod_le _ _) (Nat.mul_le_mul_right _ ?_)
  exact Nat.le_trans (Nat.mod_le _ _) (Nat.mul_le_mul_right _ (Nat.mod_le _ _))

/-- Where the product fits in 32 bits, the allocation is as large as asked for. -/
theorem cacheBytes_eq {config : CacheConfig}
    (h : config.maxSeqLength * config.lang.cacheDim * config.precision < 2 ^ 32) :
    config.cacheBytes = config.maxSeqLength * config.lang.cacheDim * config.precision := by
  unfold cacheBytes allocatedSize
  simp only [List.foldl_cons, List.foldl_nil, Nat.one_mul, Nat.mod_mul_mod]
  exact Nat.mod_eq_of_lt h

end CacheConfig

/-- `_address` of the caches of a request, by layer. -/
structure CacheAddresses where
  key : List Nat := []
  value : List Nat := []

/-- The loop of `init_request` over the layers that are left. -/
def allocateCaches (bytes : Nat) : Nat → Nat → CacheAddresses × Nat
  | 0, base => ({}, base)
  | layers + 1, base =>
    let (key, base) := allocateAddress base bytes
    let (value, base) := allocateAddress base bytes
    let (rest, base) := allocateCaches bytes layers base
    ({ key := key :: rest.key, value := value :: rest.value }, base)

/-- A language scheduler with the allocator that its tensors come from. -/
structure CacheMemory where
  sys : LangSystem
  baseAddr : Nat := 0
  caches : Nat → CacheAddresses := fun _ => {}

namespace CacheMemory

/-- Another tensor may be allocated at any time, as `generate_model` does. -/
inductive Act
  | lang (a : LangSystem.Act)
  | allocate (size : Nat)

def init (trace : List TraceRow) : CacheMemory := { sys := LangSystem.init trace }

/-- The tensors of `init_request`. -/
def initRequest (config : CacheConfig) (s : CacheMemory) (r : LangRequest) : CacheMemory :=
  let (caches, base) := allocateCaches config.cacheBytes config.lang.numSimLayers s.baseAddr
  { s with baseAddr := base, caches := Function.update s.caches r.requestId caches }

/-- The requests that a call takes off the queue, for each of which it calls `init_request`. -/
def taken (before after : LangSystem) : List LangRequest :=
  before.lang.requestQueue.take (before.lang.requestQueue.length - after.lang.requestQueue.length)

def step (config : CacheConfig) (s : CacheMemory) : Act → Option CacheMemory
  | .lang a => do
    let sys ← LangSystem.step config.lang s.sys a
    some ((taken s.sys sys).foldl (initRequest config) { s with sys := sys })
  | .allocate size => some { s with baseAddr := (allocateAddress s.baseAddr size).2 }

def Run (config : CacheConfig) (rows : List TraceRow) (h : List (CacheMemory × Act))
    (s : CacheMemory) : Prop :=
  Machine.Run (Machine.partialDet (step config)) (init rows) h s

/-- The requests that have been given caches. Those that have completed keep them as they were
resized last, when the request was still active. -/
def requests (s : CacheMemory) : List LangRequest :=
  s.sys.lang.activeRequests ++ s.sys.lang.completed

/-- Where the caches of a request are. -/
def regions (config : CacheConfig) (s : CacheMemory) (r : LangRequest) : List Region :=
  List.zipWith Region.mk (s.caches r.requestId).key
      (r.keyCache.map (tensorSize config.precision)) ++
    List.zipWith Region.mk (s.caches r.requestId).value
      (r.valueCache.map (tensorSize config.precision))

/-- Every cache is inside its allocation, and those of two requests do not overlap. -/
structure Contained (config : CacheConfig) (s : CacheMemory) : Prop where
  addressed : ∀ r ∈ s.requests, (s.caches r.requestId).key.length = r.keyCache.length ∧
    (s.caches r.requestId).value.length = r.valueCache.length
  inside : ∀ r ∈ s.requests, ∀ dims ∈ r.keyCache ++ r.valueCache,
    tensorSize config.precision dims ≤ config.cacheBytes ∧
      tensorSize config.precision dims ≤
        config.maxSeqLength * config.lang.cacheDim * config.precision
  apart : ∀ q ∈ s.requests, ∀ r ∈ s.requests, q.requestId ≠ r.requestId →
    ∀ a ∈ s.regions config q, ∀ b ∈ s.regions config r, a.Apart b

/-- The sequence of each row is short enough, to its last token, for the bytes that are
allocated. -/
def Fits (config : CacheConfig) (rows : List TraceRow) : Prop :=
  ∀ row ∈ rows, tensorSize config.precision
    [row.cachedLen + row.promptLength + max 1 row.targetLength, config.lang.cacheDim] ≤
      config.cacheBytes

variable {config : CacheConfig} {rows : List TraceRow} {s s' : CacheMemory}

/-- Where nothing wraps around, the rows fit that have at most `max_seq_length` tokens. -/
theorem rows_fit_iff (h : config.maxSeqLength * config.lang.cacheDim * config.precision < 2 ^ 32)
    (hpos : 0 < config.lang.cacheDim * config.precision) : Fits config rows ↔ ∀ row ∈ rows,
      row.cachedLen + row.promptLength + max 1 row.targetLength ≤ config.maxSeqLength := by
  unfold Fits tensorSize
  rw [config.cacheBytes_eq h]
  refine forall₂_congr fun row _ => ?_
  simp only [List.foldl_cons, List.foldl_nil]
  rw [Nat.mul_comm config.precision, Nat.mul_right_comm, Nat.mul_assoc, Nat.mul_assoc]
  exact Nat.mul_le_mul_right_iff hpos

/-! ## The layout -/

/-- What the addresses handed out so far are. -/
structure Laid (config : CacheConfig) (s : CacheMemory) : Prop where
  aligned : s.baseAddr % 256 = 0
  below : ∀ id, ∀ a ∈ (s.caches id).key ++ (s.caches id).value,
    a + config.cacheBytes ≤ s.baseAddr
  apart : ∀ id id', id ≠ id' → ∀ a ∈ (s.caches id).key ++ (s.caches id).value,
    ∀ b ∈ (s.caches id').key ++ (s.caches id').value,
      (Region.mk a config.cacheBytes).Apart ⟨b, config.cacheBytes⟩

/-- The caches of a request lie from the old base to the new one. -/
theorem allocateCaches_spec {bytes : Nat} (hbytes : bytes < 2 ^ 32) (layers : Nat) {base : Nat}
    (h : base % 256 = 0) :
    base ≤ (allocateCaches bytes layers base).2 ∧
      (allocateCaches bytes layers base).2 % 256 = 0 ∧
      (allocateCaches bytes layers base).1.key.length = layers ∧
      (allocateCaches bytes layers base).1.value.length = layers ∧
      ∀ a ∈ (allocateCaches bytes layers base).1.key ++ (allocateCaches bytes layers base).1.value,
        base ≤ a ∧ a + bytes ≤ (allocateCaches bytes layers base).2 := by
  induction layers generalizing base with
  | zero => exact ⟨Nat.le_refl _, h, rfl, rfl, fun a ha => (nomatch ha)⟩
  | succ layers ih =>
    obtain ⟨hkey, hnext, halign⟩ := allocateAddress_spec h bytes
    obtain ⟨hvalue, hnext', halign'⟩ := allocateAddress_spec halign bytes
    obtain ⟨hle, hend, hkeys, hvalues, hall⟩ := ih halign'
    rw [Nat.mod_eq_of_lt hbytes] at hnext hnext'
    simp only [allocateCaches]
    refine ⟨by omega, hend, by simp [hkeys], by simp [hvalues], fun a ha => ?_⟩
    simp only [List.cons_append, List.mem_cons, List.mem_append] at ha
    rcases ha with rfl | ha | rfl | ha
    · rw [hkey]
      omega
    · have := hall a (List.mem_append_left _ ha)
      omega
    · rw [hvalue]
      omega
    · have := hall a (List.mem_append_right _ ha)
      omega

theorem Laid.initRequest (h : Laid config s) (r : LangRequest) :
    Laid config (s.initRequest config r) := by
  obtain ⟨hle, halign, -, -, hall⟩ :=
    allocateCaches_spec config.cacheBytes_lt config.lang.numSimLayers h.aligned
  have hnew : ∀ id, id ≠ r.requestId → ∀ a ∈ (s.caches id).key ++ (s.caches id).value,
      ∀ b ∈ (allocateCaches config.cacheBytes config.lang.numSimLayers s.baseAddr).1.key ++
        (allocateCaches config.cacheBytes config.lang.numSimLayers s.baseAddr).1.value,
        (Region.mk a config.cacheBytes).Apart ⟨b, config.cacheBytes⟩ := by
    intro id _ a ha b hb
    exact .inl (Nat.le_trans (h.below id a ha) (hall b hb).1)
  refine ⟨halign, fun id a ha => ?_, fun id id' hne a ha b hb => ?_⟩
  all_goals simp only [CacheMemory.initRequest, Function.update_apply] at *
  · split at ha
    · exact (hall a ha).2
    · exact Nat.le_trans (h.below id a ha) hle
  · split at ha <;> split at hb
    · omega
    · exact (hnew id' (by omega) b hb a ha).symm
    · exact hnew id (by omega) a ha b hb
    · exact h.apart id id' hne a ha b hb

/-- A request has an address for each of its caches. -/
def Placed (config : CacheConfig) (s : CacheMemory) (id : Nat) : Prop :=
  (s.caches id).key.length = config.lang.numSimLayers ∧
    (s.caches id).value.length = config.lang.numSimLayers

theorem placed_initRequest {r : LangRequest} {id : Nat} (haligned : s.baseAddr % 256 = 0)
    (h : id = r.requestId ∨ Placed config s id) : Placed config (s.initRequest config r) id := by
  obtain ⟨-, -, hkeys, hvalues, -⟩ :=
    allocateCaches_spec config.cacheBytes_lt config.lang.numSimLayers haligned
  unfold Placed CacheMemory.initRequest
  simp only [Function.update_apply]
  split
  · exact ⟨hkeys, hvalues⟩
  · exact h.resolve_left ‹_›

theorem initRequest_foldl (rs : List LangRequest) (h : Laid config s) :
    Laid config (rs.foldl (initRequest config) s) ∧
      (rs.foldl (initRequest config) s).sys = s.sys ∧
      ∀ id, (∃ r ∈ rs, r.requestId = id) ∨ Placed config s id →
        Placed config (rs.foldl (initRequest config) s) id := by
  induction rs generalizing s with
  | nil => exact ⟨h, rfl, fun id hid => hid.resolve_left fun ⟨_, hr, _⟩ => (nomatch hr)⟩
  | cons r rs ih =>
    obtain ⟨hlaid, hsys, hplaced⟩ := ih (h.initRequest r)
    refine ⟨hlaid, hsys, fun id hid => hplaced id ?_⟩
    rcases hid with ⟨q, hq, rfl⟩ | hid
    · rcases List.mem_cons.mp hq with rfl | hq
      · exact .inr (placed_initRequest h.aligned (.inl rfl))
      · exact .inl ⟨q, hq, rfl⟩
    · exact .inr (placed_initRequest h.aligned (.inr hid))

/-! ## The queue of the requests -/

theorem activate_suffix {lang : LangConfig} (l : LangScheduler) (queue : List LangRequest) :
    (l.activate lang queue).requestQueue <:+ queue := by
  induction queue generalizing l with
  | nil => exact List.suffix_refl _
  | cons _ rest ih =>
    unfold LangScheduler.activate
    split
    · simp only
      split
      · exact List.suffix_cons _ _
      · exact (ih _).trans (List.suffix_cons _ _)
    · exact List.suffix_refl _

theorem cycle_suffix {lang : LangConfig} (l : LangScheduler) :
    (l.cycle lang).requestQueue <:+ l.requestQueue := by
  have hactivated : ∀ l' : LangScheduler, l' = (if ({ l with cycles := l.cycles + 1 } :
      LangScheduler).activates lang then
        LangScheduler.activate lang { l with cycles := l.cycles + 1 } l.requestQueue
      else { l with cycles := l.cycles + 1 }) → l'.requestQueue <:+ l.requestQueue := by
    rintro l' rfl
    split
    · exact activate_suffix _ _
    · exact List.suffix_refl _
  unfold LangScheduler.cycle
  simp only
  generalize hl : (if ({ l with cycles := l.cycles + 1 } : LangScheduler).activates lang
    then _ else _) = l'
  have hsuffix := hactivated l' hl.symm
  split
  · unfold LangScheduler.initInputsAndModel
    simp only
    split <;> exact hsuffix
  · exact hsuffix

/-- Every call takes requests off the front of the queue, if any. -/
theorem step_suffix {a : LangSystem.Act} {t t' : LangSystem}
    (h : LangSystem.step config.lang t a = some t') :
    t'.lang.requestQueue <:+ t.lang.requestQueue := by
  cases a with
  | cycle =>
    obtain rfl := Option.some.inj h
    exact cycle_suffix _
  | popModel =>
    obtain ⟨⟨m, l⟩, hpop, h⟩ := Option.bind_eq_some_iff.mp h
    obtain rfl := Option.some.inj h
    unfold LangScheduler.popModel at hpop
    split at hpop
    · cases hpop
    · obtain ⟨-, rfl⟩ := Prod.mk.inj (Option.some.inj hpop)
      exact List.suffix_refl _
  | finishModel i =>
    obtain ⟨m, -, h⟩ := Option.bind_eq_some_iff.mp h
    obtain ⟨l, hl, h⟩ := Option.bind_eq_some_iff.mp h
    obtain rfl := Option.some.inj h
    obtain ⟨u, hu, hl⟩ := Option.bind_eq_some_iff.mp hl
    obtain rfl := Option.some.inj hl
    refine Loops.foldlM_induction (P := fun u => u.requestQueue <:+ t.lang.requestQueue) hu
      (List.suffix_refl _) fun b _ _ b' hb hf => ?_
    obtain ⟨r, hr, -⟩ := Option.bind_eq_some_iff.mp hf
    rcases LangScheduler.finishRequest_eq hr hf with ⟨-, rfl⟩ | ⟨-, rfl⟩ <;> exact hb

/-- A request that has caches after a call had them before, or the call has taken it off the
queue. -/
theorem requests_step {a : LangSystem.Act} {t t' : LangSystem}
    (hinv : LangSystem.Inv config.lang rows t) (h : LangSystem.step config.lang t a = some t')
    {r : LangRequest} (hr : r ∈ t'.lang.activeRequests ++ t'.lang.completed) :
    (∃ q ∈ taken t t', q.requestId = r.requestId) ∨
      ∃ q ∈ t.lang.activeRequests ++ t.lang.completed, q.requestId = r.requestId := by
  have hinv' := hinv.step h
  have hnodup := hinv'.account.nodup
  rw [List.append_assoc, List.map_append] at hnodup
  have hqueued : r.requestId ∉ t'.lang.requestQueue.map (·.requestId) := fun hmem =>
    (List.nodup_append.mp hnodup).2.2 _ hmem _ (List.mem_map_of_mem hr) rfl
  have hid : r.requestId ∈ (t.lang.requestQueue ++ t.lang.activeRequests ++ t.lang.completed).map
      (·.requestId) := by
    rw [hinv.account.located.mem_iff, ← hinv'.account.located.mem_iff, List.append_assoc,
      List.map_append]
    exact List.mem_append_right _ (List.mem_map_of_mem hr)
  obtain ⟨q, hq, hqid⟩ := List.mem_map.mp hid
  rw [List.append_assoc] at hq
  rcases List.mem_append.mp hq with hq | hq
  · rw [← List.suffix_iff_eq_append.mp (step_suffix h)] at hq
    rcases List.mem_append.mp hq with hq | hq
    · exact .inl ⟨q, hq, hqid⟩
    · exact absurd (hqid ▸ List.mem_map_of_mem hq) hqueued
  · exact .inr ⟨q, hq, hqid⟩

/-! ## The invariant -/

structure Inv (config : CacheConfig) (rows : List TraceRow) (s : CacheMemory) : Prop where
  sys : LangSystem.Inv config.lang rows s.sys
  laid : Laid config s
  placed : ∀ r ∈ s.requests, Placed config s r.requestId

theorem init_inv : Inv config rows (init rows) :=
  ⟨LangSystem.init_inv, ⟨rfl, fun _ _ ha => (nomatch ha), fun _ _ _ _ ha => (nomatch ha)⟩,
    fun _ hr => (nomatch hr)⟩

theorem Inv.step {a : Act} (h : Inv config rows s) (hs : step config s a = some s') :
    Inv config rows s' := by
  obtain ⟨hsys, hlaid, hplaced⟩ := h
  cases a with
  | lang a =>
    obtain ⟨t, ht, hs⟩ := Option.bind_eq_some_iff.mp hs
    obtain rfl := Option.some.inj hs
    have hstart : Laid config { s with sys := t } := ⟨hlaid.aligned, hlaid.below, hlaid.apart⟩
    obtain ⟨hlaid', hsys', hplaced'⟩ := initRequest_foldl (taken s.sys t) hstart
    refine ⟨by rw [hsys']; exact hsys.step ht, hlaid', fun r hr => hplaced' _ ?_⟩
    unfold requests at hr
    rw [hsys'] at hr
    rcases requests_step hsys ht hr with hnew | ⟨q, hq, hqid⟩
    · exact .inl hnew
    · exact .inr (hqid ▸ hplaced q hq)
  | allocate size =>
    obtain rfl := Option.some.inj hs
    obtain ⟨-, hnext, halign⟩ := allocateAddress_spec hlaid.aligned size
    refine ⟨hsys, ⟨halign, fun id a ha => ?_, hlaid.apart⟩, hplaced⟩
    exact Nat.le_trans (hlaid.below id a ha) (Nat.le_trans (Nat.le_add_right _ _) hnext)

theorem Run.inv {h : List (CacheMemory × Act)} (run : Run config rows h s) :
    Inv config rows s :=
  Machine.Run.invariant run init_inv fun _ _ _ hinv hstep => hinv.step hstep

/-! ## The caches in memory -/

theorem mem_regions {r : LangRequest} {a : Region} (h : a ∈ s.regions config r) :
    a.base ∈ (s.caches r.requestId).key ++ (s.caches r.requestId).value ∧
      ∃ dims ∈ r.keyCache ++ r.valueCache, a.size = tensorSize config.precision dims := by
  unfold regions at h
  simp only [← List.map_uncurry_zip_eq_zipWith] at h
  rcases List.mem_append.mp h with h | h
  all_goals
    obtain ⟨⟨addr, size⟩, hzip, rfl⟩ := List.mem_map.mp h
    obtain ⟨haddr, hsize⟩ := List.of_mem_zip hzip
    obtain ⟨dims, hdims, rfl⟩ := List.mem_map.mp hsize
  · exact ⟨List.mem_append_left _ haddr, dims, List.mem_append_left _ hdims, rfl⟩
  · exact ⟨List.mem_append_right _ haddr, dims, List.mem_append_right _ hdims, rfl⟩

/-- A request that has caches is at most as long as its row makes it. -/
theorem Inv.requests_length (h : Inv config rows s) {r : LangRequest} (hr : r ∈ s.requests) :
    LangScheduler.CachesFit config.lang r ∧ ∃ row ∈ rows,
      r.currentLength ≤ row.cachedLen + row.promptLength + max 1 row.targetLength := by
  have hrow : LangScheduler.CachesFit config.lang r ∧ ∃ row, rows[r.requestId]? = some row ∧
      LangScheduler.Progress row (s.sys.served r.requestId) r ∧
      s.sys.served r.requestId ≤ max 1 row.targetLength := by
    rcases List.mem_append.mp hr with hr | hr
    · obtain ⟨hfit, row, hrow, hprogress, hlt⟩ := h.sys.account.active r hr
      exact ⟨hfit, row, hrow, hprogress, Nat.le_of_lt hlt⟩
    · obtain ⟨hfit, row, hrow, hprogress, heq⟩ := h.sys.account.completed r hr
      exact ⟨hfit, row, hrow, hprogress, Nat.le_of_eq heq⟩
  obtain ⟨hfit, row, hrow, hprogress, hle⟩ := hrow
  refine ⟨hfit, row, List.mem_of_getElem? hrow, ?_⟩
  rw [hprogress.currentLength]
  split <;> omega

/-- A longer cache takes more bytes. -/
theorem tensorSize_mono {precision dim m n : Nat} (h : m ≤ n) :
    tensorSize precision [m, dim] ≤ tensorSize precision [n, dim] :=
  Nat.mul_le_mul_right _ (Nat.mul_le_mul_left _ h)

theorem Inv.contained (h : Inv config rows s) (hfits : Fits config rows) : Contained config s := by
  have hinside : ∀ r ∈ s.requests, ∀ dims ∈ r.keyCache ++ r.valueCache,
      tensorSize config.precision dims ≤ config.cacheBytes := by
    intro r hr dims hdims
    obtain ⟨⟨hkey, hvalue⟩, row, hrow, hle⟩ := h.requests_length hr
    have heq : dims = [r.currentLength, config.lang.cacheDim] := by
      rw [hkey, hvalue] at hdims
      rcases List.mem_append.mp hdims with hdims | hdims <;> exact List.eq_of_mem_replicate hdims
    rw [heq]
    exact Nat.le_trans (tensorSize_mono hle) (hfits row hrow)
  refine ⟨fun r hr => ?_, fun r hr dims hdims => ?_, fun q hq r hr hne a ha b hb => ?_⟩
  · obtain ⟨⟨hkey, hvalue⟩, -⟩ := h.requests_length hr
    obtain ⟨hkeys, hvalues⟩ := h.placed r hr
    rw [hkey, hvalue, List.length_replicate]
    exact ⟨hkeys, hvalues⟩
  · exact ⟨hinside r hr dims hdims, Nat.le_trans (hinside r hr dims hdims) config.cacheBytes_le⟩
  · obtain ⟨hbase, dims, hdims, hsize⟩ := mem_regions ha
    obtain ⟨hbase', dims', hdims', hsize'⟩ := mem_regions hb
    have hapart := h.laid.apart _ _ hne _ hbase _ hbase'
    have hsmall := hapart.shrink (hinside q hq dims hdims) (hinside r hr dims' hdims')
    rwa [← hsize, ← hsize'] at hsmall

/-- Where every request has completed, the caches were as long as the rows make them. -/
theorem Inv.fits (h : Inv config rows s) (hlayers : 0 < config.lang.numSimLayers)
    (hdone : ∀ id < rows.length, ∃ r ∈ s.sys.lang.completed, r.requestId = id)
    (hcontained : Contained config s) : Fits config rows := by
  intro row hrow
  obtain ⟨id, hid⟩ := List.mem_iff_getElem?.mp hrow
  obtain ⟨r, hr, rfl⟩ := hdone id (List.getElem?_eq_some_iff.mp hid).1
  obtain ⟨⟨hkey, -⟩, row', hrow', hprogress, hmax⟩ := h.sys.account.completed r hr
  obtain rfl := Option.some.inj (hid.symm.trans hrow')
  have hlength : r.currentLength = row.cachedLen + row.promptLength + max 1 row.targetLength := by
    rw [hprogress.currentLength, if_neg (by omega), hmax]
    omega
  have hmem : [r.currentLength, config.lang.cacheDim] ∈ r.keyCache ++ r.valueCache := by
    rw [hkey]
    exact List.mem_append_left _ (List.mem_replicate.mpr ⟨by omega, rfl⟩)
  have hinside := (hcontained.inside r (List.mem_append_right _ hr) _ hmem).1
  rwa [hlength] at hinside

/-- The caches stay inside their allocations in every run over rows that are short enough, and in no
run that completes the requests of other rows. -/
theorem caches_contained {h : List (CacheMemory × Act)} (run : Run config rows h s) :
    (Fits config rows → Machine.Always (Contained config) h s) ∧
      (0 < config.lang.numSimLayers →
        (∀ id < rows.length, ∃ r ∈ s.sys.lang.completed, r.requestId = id) →
        Machine.Always (Contained config) h s → Fits config rows) := by
  refine ⟨fun hfits => ?_, fun hlayers hdone hall => run.inv.fits hlayers hdone hall.2⟩
  have hinv : Machine.Always (Inv config rows) h s :=
    Machine.Run.always run init_inv fun _ _ _ hinv hstep => hinv.step hstep
  exact ⟨fun p hp => (hinv.1 p hp).contained hfits, hinv.2.contained hfits⟩

/-- One layer, and caches for `tokens` tokens of 256 bytes. -/
def cachesOf (tokens : Nat) : CacheConfig where
  lang := { numSimLayers := 1, cacheDim := 64 }
  maxSeqLength := tokens
  precision := 4

/-- Two prompts of three tokens that ask for two each. -/
def twoShortPrompts : List TraceRow :=
  List.replicate 2 { time := 0, promptLength := 3, targetLength := 2, cachedLen := 0 }

/-- Both requests become active, and their first model finishes. -/
def firstModel : List Act := [.lang .cycle, .lang .popModel, .lang (.finishModel 0)]

/-- Five tokens are enough for these prompts. -/
theorem caches_contained_fiveTokens : ∃ h s, Run (cachesOf 5) twoShortPrompts h s ∧
    s.sys.lang.activeRequests.length = 2 ∧ Machine.Always (Contained (cachesOf 5)) h s := by
  have hlength : (firstModel.foldlM (step (cachesOf 5)) (init twoShortPrompts)).map
      (·.sys.lang.activeRequests.length) = some 2 := by decide +kernel
  obtain ⟨s, hs, hlength⟩ := Option.map_eq_some_iff.mp hlength
  obtain ⟨h, -, run⟩ := Machine.Run.of_foldlM hs
  have run : Run (cachesOf 5) twoShortPrompts h s := run
  refine ⟨h, s, run, hlength, (caches_contained run).1 ?_⟩
  exact (rows_fit_iff (by decide) (by decide)).mpr (by decide)

/-- A value cache that is longer than `max_seq_length` tokens overlaps the key cache of the next
request. -/
theorem value_cache_overlaps : ∃ h s, Run (cachesOf 1) twoShortPrompts h s ∧
    ∃ q ∈ s.sys.lang.activeRequests, ∃ r ∈ s.sys.lang.activeRequests, q.requestId ≠ r.requestId ∧
      ∃ a ∈ s.regions (cachesOf 1) q, ∃ b ∈ s.regions (cachesOf 1) r,
        (cachesOf 1).maxSeqLength * (cachesOf 1).lang.cacheDim * (cachesOf 1).precision < a.size ∧
          ¬ a.Apart b := by
  have hoverlap : (firstModel.foldlM (step (cachesOf 1)) (init twoShortPrompts)).map
      (fun s => decide (∃ q ∈ s.sys.lang.activeRequests, ∃ r ∈ s.sys.lang.activeRequests,
        q.requestId ≠ r.requestId ∧ ∃ a ∈ s.regions (cachesOf 1) q,
          ∃ b ∈ s.regions (cachesOf 1) r, (cachesOf 1).maxSeqLength *
            (cachesOf 1).lang.cacheDim * (cachesOf 1).precision < a.size ∧ ¬ a.Apart b)) =
      some true := by decide +kernel
  obtain ⟨s, hs, hoverlap⟩ := Option.map_eq_some_iff.mp hoverlap
  obtain ⟨h, -, run⟩ := Machine.Run.of_foldlM hs
  exact ⟨h, s, run, of_decide_eq_true hoverlap⟩

end CacheMemory

end OnnxSim
