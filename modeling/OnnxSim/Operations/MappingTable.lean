import OnnxSim.Operations.Mapping

/-!
# The memo of the mapping table

`MappingTable::at` keeps the mapping of the first key it is asked for. The order of its keys reads the
loop counts only, while the tilers also read the stride, the padding and the core of the key: a second
key with the same loop counts gets the first one's mapping (`MappingTable.memo_transparent_iff`), whether or not the
tiler would find the same for it.
-/

namespace OnnxSim

namespace MappingKey

/-- Two keys that `std::map` takes for one. -/
def equiv (a b : MappingKey) : Bool := !a.lt b && !b.lt a

/-- Among the keys that have tilings, the order reads the loop counts. -/
theorem equiv_iff {a b : MappingKey} (ha : a.IsConv) (hb : b.IsConv) :
    a.equiv b ↔ a.toLoopCounts = b.toLoopCounts := by
  obtain ⟨⟨aN, aC, aM, aS, aR, aQ, aP⟩, aPadding, aStride, aCore⟩ := a
  obtain ⟨⟨bN, bC, bM, bS, bR, bQ, bP⟩, bPadding, bStride, bCore⟩ := b
  obtain ⟨hP, hS⟩ := ha
  obtain ⟨hP', hS'⟩ := hb
  simp only at hP hS hP' hS'
  subst hP hS hP' hS'
  unfold equiv lt
  rcases Nat.lt_trichotomy aN bN with h | rfl | h
  · simp [h, h.ne]
  · rcases Nat.lt_trichotomy aC bC with h | rfl | h
    · simp [h, h.ne]
    · rcases Nat.lt_trichotomy aM bM with h | rfl | h
      · simp [h, h.ne]
      · rcases Nat.lt_trichotomy aS bS with h | rfl | h
        · simp [h, h.ne]
        · rcases Nat.lt_trichotomy aP bP with h | rfl | h
          · simp [h, h.ne]
          · simp
          · simp [h, h.ne', h.not_gt]
        · simp [h, h.ne', h.not_gt]
      · simp [h, h.ne', h.not_gt]
    · simp [h, h.ne', h.not_gt]
  · simp [h, h.ne', h.not_gt]

theorem IsGemm.isConv {key : MappingKey} (h : key.IsGemm) : key.IsConv :=
  ⟨h.1.trans h.2.1.symm, h.2.2.1.trans h.2.2.2.symm⟩

end MappingKey

/-- `std::map<LoopCounts, Mapping>`, in which two keys are one when neither is less. -/
abbrev MappingTable := List (MappingKey × Mapping)

namespace MappingTable

/-- `_mapping_table.find(key)`. -/
def find (t : MappingTable) (key : MappingKey) : Option Mapping :=
  (t.find? fun e => e.1.equiv key).map (·.2)

/-- `_mapping_table[key] = mapping`. -/
def set (t : MappingTable) (key : MappingKey) (mapping : Mapping) : MappingTable :=
  if t.any fun e => e.1.equiv key then
    t.map fun e => if e.1.equiv key then (e.1, mapping) else e
  else t ++ [(key, mapping)]

variable (config : SimulationConfig) (fuel : Nat)

/-- `gemm_mapping` or `conv_mapping`, whichever the key asks for. -/
def addTiling (t : MappingTable) (key : MappingKey) : Option MappingTable :=
  if key.IsGemm then (gemmMapping config key).map (t.set key)
  else if key.IsConv then (calcConvMapping config fuel key).map (t.set key)
  else some t

/-- `fallback_mapping`, which ends with `_mapping_table.at(key)`: without an entry, an exception. -/
def fallbackMapping (t : MappingTable) (key : MappingKey) :
    Option (Option Mapping × MappingTable) :=
  (addTiling config fuel t key).map fun t => (t.find key, t)

/-- `MappingTable::at`: the mapping, or none for an exception, and the table that it leaves. -/
def atKey (t : MappingTable) (key : MappingKey) : Option (Option Mapping × MappingTable) :=
  match t.find key with
  | some mapping => some (some mapping, t)
  | none => fallbackMapping config fuel t key

/-- The table that calls of `at` leave, if they all return. -/
def afterCalls (calls : List MappingKey) : Option MappingTable :=
  calls.foldlM (fun t key => (atKey config fuel t key).map (·.2)) []

/-- What the tilers find for a key. -/
def tiling (key : MappingKey) : Option Mapping :=
  if key.IsGemm then gemmMapping config key else calcConvMapping config fuel key

/-- The first call with the loop counts of `key`. -/
def firstCall (calls : List MappingKey) (key : MappingKey) : Option MappingKey :=
  calls.find? fun k => k.toLoopCounts = key.toLoopCounts

/-- The tilers read the same for both keys. -/
def Agree (k key : MappingKey) : Prop :=
  config.tilerCore k.targetCore = config.tilerCore key.targetCore ∧
    (key.IsGemm ∨ k.stride = key.stride ∧ k.padding = key.padding)

variable {config : SimulationConfig} {fuel : Nat} {t t' : MappingTable} {k key : MappingKey}

theorem isConv_congr (h : k.toLoopCounts = key.toLoopCounts) : k.IsConv ↔ key.IsConv := by
  unfold MappingKey.IsConv
  rw [h]

theorem tiling_congr (hloops : k.toLoopCounts = key.toLoopCounts) (h : Agree config k key) :
    tiling config fuel k = tiling config fuel key := by
  obtain ⟨loops, padding, stride, core⟩ := k
  obtain ⟨loops', padding', stride', core'⟩ := key
  obtain rfl : loops = loops' := hloops
  obtain ⟨hcore, hgemm⟩ := h
  simp only at hcore
  unfold tiling
  by_cases hkind : MappingKey.IsGemm ⟨loops, padding', stride', core'⟩
  · have hkind' : MappingKey.IsGemm ⟨loops, padding, stride, core⟩ := hkind
    rw [if_pos hkind, if_pos hkind']
    unfold gemmMapping
    simp only [hcore]
  · have hkind' : ¬ MappingKey.IsGemm ⟨loops, padding, stride, core⟩ := hkind
    obtain ⟨rfl, rfl⟩ := hgemm.resolve_left hkind
    rw [if_neg hkind, if_neg hkind']
    unfold calcConvMapping
    simp only [hcore]

/-! ## The table after some calls -/

/-- The table holds the tiling of the first call with each loop counts. -/
structure Remembers (config : SimulationConfig) (fuel : Nat) (calls : List MappingKey)
    (t : MappingTable) : Prop where
  keys : ∀ e ∈ t, e.1.IsConv
  found : ∀ key, key.IsConv → t.find key = (firstCall calls key).bind (tiling config fuel)
  kept : ∀ key, key.IsConv → (firstCall calls key).isSome → (t.find key).isSome

theorem find_congr (hkeys : ∀ e ∈ t, e.1.IsConv) (hk : k.IsConv) (hkey : key.IsConv)
    (h : k.toLoopCounts = key.toLoopCounts) : t.find k = t.find key := by
  unfold find
  rw [← List.head?_filter, ← List.head?_filter]
  congr 2
  refine List.filter_congr fun e he => ?_
  rw [Bool.eq_iff_iff, MappingKey.equiv_iff (hkeys e he) hk, MappingKey.equiv_iff (hkeys e he) hkey,
    h]

theorem find_set {m : Mapping} (hnone : t.find k = none) (hk : k.IsConv) (hkey : key.IsConv) :
    (t.set k m).find key = (t.find key).or (if k.toLoopCounts = key.toLoopCounts then some m
      else none) := by
  have hnone' : t.find? (fun e => e.1.equiv k) = none := Option.map_eq_none_iff.mp hnone
  have hany : (t.any fun e => e.1.equiv k) = false := by
    rw [List.any_eq_false]
    exact List.find?_eq_none.mp hnone'
  have hone := MappingKey.equiv_iff hk hkey
  unfold set find
  rw [hany, if_neg Bool.false_ne_true, List.find?_append, Option.map_or]
  congr 1
  by_cases h : k.toLoopCounts = key.toLoopCounts
  · simp [h, hone.mpr h]
  · simp [h, mt hone.mp h]

theorem set_keys {m : Mapping} (hkeys : ∀ e ∈ t, e.1.IsConv) (hk : k.IsConv) :
    ∀ e ∈ t.set k m, e.1.IsConv := by
  intro e he
  unfold set at he
  split at he
  · obtain ⟨e', he', rfl⟩ := List.mem_map.mp he
    split <;> exact hkeys e' he'
  · rcases List.mem_append.mp he with he | he
    · exact hkeys e he
    · obtain rfl := List.mem_singleton.mp he
      exact hk

/-- What `at` does: it finds the key, tiles it, or throws. -/
theorem atKey_cases {r : Option Mapping} (h : atKey config fuel t k = some (r, t')) :
    (∃ m, t.find k = some m ∧ r = some m ∧ t' = t) ∨
    (t.find k = none ∧ k.IsConv ∧ ∃ m, tiling config fuel k = some m ∧ r = (t.set k m).find k ∧
      t' = t.set k m) ∨
    (t.find k = none ∧ ¬ k.IsConv ∧ t' = t) := by
  unfold atKey at h
  split at h
  · rename_i m hfind
    obtain ⟨rfl, rfl⟩ := Prod.mk.inj (Option.some.inj h)
    exact .inl ⟨m, hfind, rfl, rfl⟩
  · rename_i hfind
    obtain ⟨u, hu, h⟩ := Option.map_eq_some_iff.mp h
    obtain ⟨rfl, rfl⟩ := Prod.mk.inj h
    unfold addTiling at hu
    by_cases hgemm : k.IsGemm
    · rw [if_pos hgemm] at hu
      obtain ⟨m, hm, rfl⟩ := Option.map_eq_some_iff.mp hu
      exact .inr (.inl ⟨hfind, hgemm.isConv, m, by rw [tiling, if_pos hgemm, hm], rfl, rfl⟩)
    · rw [if_neg hgemm] at hu
      by_cases hconv : k.IsConv
      · rw [if_pos hconv] at hu
        obtain ⟨m, hm, rfl⟩ := Option.map_eq_some_iff.mp hu
        exact .inr (.inl ⟨hfind, hconv, m, by rw [tiling, if_neg hgemm, hm], rfl, rfl⟩)
      · rw [if_neg hconv] at hu
        obtain rfl := Option.some.inj hu
        exact .inr (.inr ⟨hfind, hconv, rfl⟩)

theorem firstCall_snoc (calls : List MappingKey) (k key : MappingKey) :
    firstCall (calls ++ [k]) key = (firstCall calls key).or
      (if k.toLoopCounts = key.toLoopCounts then some k else none) := by
  unfold firstCall
  rw [List.find?_append]
  congr 1
  by_cases h : k.toLoopCounts = key.toLoopCounts <;> simp [h]

/-- One more call of `at`. -/
theorem Remembers.atKey {calls : List MappingKey} {r : Option Mapping}
    (h : Remembers config fuel calls t)
    (hat : MappingTable.atKey config fuel t k = some (r, t')) :
    Remembers config fuel (calls ++ [k]) t' := by
  -- a key with other loop counts than `k` is looked up as before
  have hfirst : ∀ key, k.toLoopCounts ≠ key.toLoopCounts →
      firstCall (calls ++ [k]) key = firstCall calls key := by
    intro key hne
    rw [firstCall_snoc, if_neg hne, Option.or_none]
  rcases atKey_cases hat with ⟨m, hfind, -, rfl⟩ | ⟨hfind, hk, m, hm, -, rfl⟩ | ⟨-, hk, rfl⟩
  · have hknown : ∀ key, key.IsConv → firstCall (calls ++ [k]) key = firstCall calls key := by
      intro key hkey
      by_cases hloops : k.toLoopCounts = key.toLoopCounts
      · have hsame := find_congr h.keys ((isConv_congr hloops).mpr hkey) hkey hloops
        have hfound := h.found key hkey
        rw [← hsame, hfind] at hfound
        obtain ⟨k', hk', -⟩ := Option.bind_eq_some_iff.mp hfound.symm
        rw [firstCall_snoc, hk', Option.some_or]
      · exact hfirst key hloops
    refine ⟨h.keys, fun key hkey => ?_, fun key hkey hsome => ?_⟩
    · rw [hknown key hkey]
      exact h.found key hkey
    · rw [hknown key hkey] at hsome
      exact h.kept key hkey hsome
  · have hnew : ∀ key, key.IsConv → k.toLoopCounts = key.toLoopCounts →
        t.find key = none ∧ firstCall (calls ++ [k]) key = some k := by
      intro key hkey hloops
      have hnone : t.find key = none := (find_congr h.keys hk hkey hloops).symm.trans hfind
      have hfirst : firstCall calls key = none := by
        rw [← Option.not_isSome_iff_eq_none]
        intro hsome
        simpa [hnone] using h.kept key hkey hsome
      exact ⟨hnone, by rw [firstCall_snoc, hfirst, Option.none_or, if_pos hloops]⟩
    refine ⟨set_keys h.keys hk, fun key hkey => ?_, fun key hkey hsome => ?_⟩
    all_goals rw [find_set hfind hk hkey]
    all_goals by_cases hloops : k.toLoopCounts = key.toLoopCounts
    · obtain ⟨hnone, hlast⟩ := hnew key hkey hloops
      rw [hnone, hlast, if_pos hloops, Option.none_or, Option.bind_some, hm]
    · rw [if_neg hloops, Option.or_none, hfirst key hloops]
      exact h.found key hkey
    · simp [hloops]
    · rw [if_neg hloops, Option.or_none]
      rw [hfirst key hloops] at hsome
      exact h.kept key hkey hsome
  · have hother : ∀ key : MappingKey, key.IsConv → k.toLoopCounts ≠ key.toLoopCounts :=
      fun key hkey hloops => hk ((isConv_congr hloops).mpr hkey)
    refine ⟨h.keys, fun key hkey => ?_, fun key hkey hsome => ?_⟩
    · rw [hfirst key (hother key hkey)]
      exact h.found key hkey
    · rw [hfirst key (hother key hkey)] at hsome
      exact h.kept key hkey hsome

theorem remembers {calls : List MappingKey} (h : afterCalls config fuel calls = some t) :
    Remembers config fuel calls t := by
  induction calls using List.reverseRecOn generalizing t with
  | nil =>
    obtain rfl := Option.some.inj h
    exact ⟨fun e he => (nomatch he), fun _ _ => rfl, fun _ _ hsome => (nomatch hsome)⟩
  | append_singleton calls k ih =>
    unfold afterCalls at h
    rw [List.foldlM_append] at h
    obtain ⟨u, hu, h⟩ := Option.bind_eq_some_iff.mp h
    rw [List.foldlM_cons] at h
    obtain ⟨v, hv, h⟩ := Option.bind_eq_some_iff.mp h
    obtain rfl := Option.some.inj h
    obtain ⟨⟨r, t'⟩, hat, rfl⟩ := Option.map_eq_some_iff.mp hv
    exact (ih hu).atKey hat

/-! ## Transparency -/

/-- A key that is not in the table gets what the tiler finds. -/
theorem atKey_miss (hnone : t.find key = none) (hkey : key.IsConv) :
    (atKey config fuel t key).map (·.1) = (tiling config fuel key).map some := by
  have hfound : ∀ m, (t.set key m).find key = some m := by
    intro m
    rw [find_set hnone hkey hkey, hnone, if_pos rfl, Option.none_or]
  unfold atKey fallbackMapping addTiling tiling
  rw [hnone]
  simp only [Option.map_map]
  split
  · cases gemmMapping config key <;> simp [hfound]
  · cases calcConvMapping config fuel key <;> simp [hfound]

/-- A key gets the same mapping from the table as from a fresh one exactly when the tiler finds the same
for the first key with its loop counts, as it does for a key that agrees with it. -/
theorem memo_transparent_iff {calls : List MappingKey}
    (h : afterCalls config fuel calls = some t) (hkey : key.IsConv) :
    ((atKey config fuel t key).map (·.1) = (atKey config fuel [] key).map (·.1) ↔
      ∀ k, firstCall calls key = some k → tiling config fuel k = tiling config fuel key) ∧
    ((∀ k, firstCall calls key = some k → Agree config k key) →
      (atKey config fuel t key).map (·.1) = (atKey config fuel [] key).map (·.1)) := by
  have hmemo := remembers h
  have hiff : (atKey config fuel t key).map (·.1) = (atKey config fuel [] key).map (·.1) ↔
      ∀ k, firstCall calls key = some k → tiling config fuel k = tiling config fuel key := by
    rw [atKey_miss (t := []) rfl hkey]
    cases hfirst : firstCall calls key with
    | none =>
      have hnone := hmemo.found key hkey
      rw [hfirst, Option.bind_none] at hnone
      rw [atKey_miss hnone hkey]
      simp
    | some k =>
      obtain ⟨m, hm⟩ := Option.isSome_iff_exists.mp (hmemo.kept key hkey (by rw [hfirst]; rfl))
      have hk := hmemo.found key hkey
      rw [hfirst, Option.bind_some, hm] at hk
      have hat : (atKey config fuel t key).map (·.1) = some (some m) := by
        unfold atKey
        rw [hm]
        rfl
      rw [hat]
      simp only [Option.some.injEq, forall_eq']
      rw [← hk]
      cases tiling config fuel key <;> simp
  refine ⟨hiff, fun hagree => hiff.mpr fun k hk => ?_⟩
  have hloops : k.toLoopCounts = key.toLoopCounts := by simpa using List.find?_some hk
  exact tiling_congr hloops (hagree k hk)

/-- A core of four by four with a kilobyte of scratchpad and one of accumulator. -/
def smallCore : SimulationConfig where
  numCores := 1
  coreConfig := fun _ => { coreWidth := 4, coreHeight := 4, spadSize := 1, accumSpadSize := 1 }
  dramChannels := 1
  dramReqSize := 32
  precision := 1

/-- A convolution with an output of eight by eight. -/
def convKey (stride : Nat) : MappingKey where
  N := 1
  C := 4
  M := 4
  S := 3
  R := 3
  Q := 8
  P := 8
  padding := 0
  stride := stride

/-- The second call for the same layer gets its mapping. -/
theorem memo_transparent_same : ∃ t, afterCalls smallCore 60 [convKey 1] = some t ∧
    (atKey smallCore 60 t (convKey 1)).map (·.1) = (atKey smallCore 60 [] (convKey 1)).map (·.1) := by
  have hsome : (afterCalls smallCore 60 [convKey 1]).isSome := by decide +kernel
  obtain ⟨t, ht⟩ := Option.isSome_iff_exists.mp hsome
  refine ⟨t, ht, (memo_transparent_iff ht ⟨rfl, rfl⟩).2 fun k hk => ?_⟩
  have hk : convKey 1 = k := by simpa [firstCall] using hk
  exact hk ▸ ⟨rfl, .inr ⟨rfl, rfl⟩⟩

/-- A layer of stride 2 gets the mapping of the layer of stride 1 before it. -/
theorem stride_forgotten :
    ((afterCalls smallCore 60 [convKey 1]).bind fun t =>
      (atKey smallCore 60 t (convKey 2)).map (·.1)) ≠
    (atKey smallCore 60 [] (convKey 2)).map (·.1) := by
  decide +kernel

end MappingTable

end OnnxSim
