import OnnxSim.Simulator
import OnnxSim.Lib.Loops

/-!
# Where accesses arrive

Every access on its way is under way to the node that `get_dest_node` names, whatever the number of
cores, ports and channels: a request to the node of its channel, a response to a port of the core
that made it (`Routed.at_core`, `Routed.at_memory`).
-/

namespace OnnxSim

open Queues

variable {config : SimulationConfig} {m : MemoryAccess} {dest core noc mem : Nat}

/-- The access names one of the cores, and the cores have ports. -/
def FromCore (config : SimulationConfig) (m : MemoryAccess) : Prop :=
  m.coreId.toNat < config.numCores ∧ 0 < config.icntInjectionPortsPerCore

/-- `dest` is the node that the access is sent to. -/
def Routed (config : SimulationConfig) (dest : Nat) (m : MemoryAccess) : Prop :=
  FromCore config m ∧ getDestNode config m = some dest

@[simp] theorem fromCore_answered : FromCore config m.answered ↔ FromCore config m := Iff.rfl

/-- The node of a port. -/
theorem port_lt (hcore : core < config.numCores) (hnoc : noc < config.icntInjectionPortsPerCore) :
    core * config.icntInjectionPortsPerCore + noc <
      config.numCores * config.icntInjectionPortsPerCore := by
  calc core * config.icntInjectionPortsPerCore + noc
      < core * config.icntInjectionPortsPerCore + config.icntInjectionPortsPerCore := by omega
    _ = (core + 1) * config.icntInjectionPortsPerCore := (Nat.succ_mul _ _).symm
    _ ≤ config.numCores * config.icntInjectionPortsPerCore := Nat.mul_le_mul_right _ hcore

theorem port_lt_nNodes (hcore : core < config.numCores)
    (hnoc : noc < config.icntInjectionPortsPerCore) :
    core * config.icntInjectionPortsPerCore + noc < config.nNodes :=
  (port_lt hcore hnoc).trans_le (Nat.le_add_right _ _)

/-- What `getDestNode` says of a routed access. -/
theorem Routed.cases (hconfig : config.Accepted) (h : Routed config dest m) :
    (m.request = true ∧ ∃ channel < config.dramChannels,
      dest = config.numCores * config.icntInjectionPortsPerCore + channel) ∨
    (m.request = false ∧ ∃ noc < config.icntInjectionPortsPerCore,
      dest = m.coreId.toNat * config.icntInjectionPortsPerCore + noc) := by
  obtain ⟨⟨-, hports⟩, hdest⟩ := h
  obtain ⟨channel, hchannel, rfl⟩ := Option.map_eq_some_iff.mp hdest
  cases hrequest : m.request with
  | true => exact .inl ⟨rfl, channel, getChannelId_lt hconfig hchannel, by simp⟩
  | false => exact .inr ⟨rfl, _, Nat.mod_lt channel hports, by simp⟩

theorem Routed.lt_nNodes (hconfig : config.Accepted) (h : Routed config dest m) :
    dest < config.nNodes := by
  rcases h.cases hconfig with ⟨-, channel, hlt, rfl⟩ | ⟨-, noc, hnoc, rfl⟩
  · exact Nat.add_lt_add_left hlt _
  · exact port_lt_nNodes h.1.1 hnoc

/-- What arrives at a port of a core is a response to one of its own requests. -/
theorem Routed.at_core (hconfig : config.Accepted) (hcore : core < config.numCores)
    (hnoc : noc < config.icntInjectionPortsPerCore)
    (h : Routed config (core * config.icntInjectionPortsPerCore + noc) m) :
    m.request = false ∧ m.coreId.toNat = core := by
  have hport := port_lt hcore hnoc
  rcases h.cases hconfig with ⟨-, channel, -, heq⟩ | ⟨hrequest, noc', hnoc', heq⟩
  · omega
  · have hports : 0 < config.icntInjectionPortsPerCore := h.1.2
    have hdiv : ∀ c k, k < config.icntInjectionPortsPerCore →
        (c * config.icntInjectionPortsPerCore + k) / config.icntInjectionPortsPerCore = c := by
      intro c k hk
      rw [Nat.add_comm, Nat.add_mul_div_right _ _ hports, Nat.div_eq_of_lt hk, Nat.zero_add]
    refine ⟨hrequest, ?_⟩
    rw [← hdiv m.coreId.toNat noc' hnoc', ← heq, hdiv core noc hnoc]

/-- What arrives at a memory is a request. -/
theorem Routed.at_memory (hconfig : config.Accepted)
    (h : Routed config (config.numCores * config.icntInjectionPortsPerCore + mem) m) :
    m.request = true := by
  rcases h.cases hconfig with ⟨hrequest, -⟩ | ⟨-, noc, hnoc, heq⟩
  · exact hrequest
  · have hport := port_lt h.1.1 hnoc
    omega

namespace MemorySystem

/-- Every access on its way is routed. -/
structure Wires (config : SimulationConfig) (s : MemorySystem) : Prop where
  nNodes : s.icnt.nNodes = config.nNodes
  carries : s.icnt.Carries (Routed config)
  waiting : ∀ ch, ∀ m ∈ s.dram.waiting ch, FromCore config m
  responses : ∀ ch, ∀ m ∈ s.dram.responses ch, FromCore config m ∧ m.request = false

/-! ## What each part of a tick does -/

variable {s t : MemorySystem}

/-- A core has no request, or its first request is pushed. -/
theorem sendRequest_cases {port : Nat} (h : sendRequest config s core port = some t) :
    t = s ∨ ∃ front rest dest, (s.cores core).requestQueue = front :: rest ∧
      getDestNode config { front with coreId := BitVec.ofNat 32 core } = some dest ∧
      t = { s with
        icnt := s.icnt.push port dest { front with coreId := BitVec.ofNat 32 core }
        cores := Function.update s.cores core { s.cores core with requestQueue := rest } } := by
  unfold sendRequest at h
  split at h
  · exact .inl (Option.some.inj h).symm
  · next front rest hq =>
    simp only [SimpleInterconnect.isFull, Bool.false_eq_true, if_false] at h
    obtain ⟨dest, hdest, h⟩ := Option.bind_eq_some_iff.mp h
    exact .inr ⟨front, rest, dest, hq, hdest, (Option.some.inj h).symm⟩

theorem takeResponse_cases {port : Nat} (h : takeResponse s core port = some t) :
    t = s ∨ ∃ response c icnt, s.icnt.top port = some response ∧
      (s.cores core).pushMemoryResponse response = some c ∧ s.icnt.pop port = some icnt ∧
      t = { s with
        cores := Function.update s.cores core c
        icnt := icnt
        consumed := Function.update s.consumed core (s.consumed core ++ [response]) } := by
  unfold takeResponse at h
  split at h
  · exact .inl (Option.some.inj h).symm
  · next response rest hout =>
    obtain ⟨c, hc, h⟩ := Option.bind_eq_some_iff.mp h
    obtain ⟨icnt, hicnt, h⟩ := Option.bind_eq_some_iff.mp h
    have htop : s.icnt.top port = some response := by simp [SimpleInterconnect.top, hout]
    exact .inr ⟨response, c, icnt, htop, hc, hicnt, (Option.some.inj h).symm⟩

theorem toDram_cases {full : Nat → Bool} (h : toDram config s full mem = some t) :
    t = s ∨ ∃ front icnt,
      s.icnt.top (config.numCores * config.icntInjectionPortsPerCore + mem) = some front ∧
      s.icnt.pop (config.numCores * config.icntInjectionPortsPerCore + mem) = some icnt ∧
      t = { s with
        icnt := icnt
        dram := { s.dram with
          waiting := Function.update s.dram.waiting mem (s.dram.waiting mem ++ [front]) } } := by
  unfold toDram at h
  simp only at h
  split at h
  · exact .inl (Option.some.inj h).symm
  · next front rest hout =>
    split at h
    · exact .inl (Option.some.inj h).symm
    · obtain ⟨icnt, hicnt, h⟩ := Option.bind_eq_some_iff.mp h
      refine .inr ⟨front, icnt, ?_, hicnt, (Option.some.inj h).symm⟩
      simp [SimpleInterconnect.top, hout]

theorem fromDram_cases (h : fromDram config s mem = some t) :
    t = s ∨ ∃ front rest dest, s.dram.responses mem = front :: rest ∧
      getDestNode config front = some dest ∧
      t = { s with
        icnt := s.icnt.push (config.numCores * config.icntInjectionPortsPerCore + mem) dest front
        dram := { s.dram with responses := Function.update s.dram.responses mem rest } } := by
  unfold fromDram at h
  simp only at h
  split at h
  · exact .inl (Option.some.inj h).symm
  · next front rest hres =>
    simp only [SimpleInterconnect.isFull, Bool.false_eq_true, if_false] at h
    obtain ⟨dest, hdest, h⟩ := Option.bind_eq_some_iff.mp h
    exact .inr ⟨front, rest, dest, hres, hdest, (Option.some.inj h).symm⟩

/-- What the two halves of its body keep, the loop over the ports keeps. -/
theorem ports_induction {P : MemorySystem → Prop}
    (hsend : ∀ s t core noc, P s → core < config.numCores →
      noc < config.icntInjectionPortsPerCore →
      sendRequest config s core (core * config.icntInjectionPortsPerCore + noc) = some t → P t)
    (htake : ∀ s t core noc, P s → core < config.numCores →
      noc < config.icntInjectionPortsPerCore →
      takeResponse s core (core * config.icntInjectionPortsPerCore + noc) = some t → P t)
    (hs : P s) (h : (List.range config.numCores).foldlM
      (fun s core => (List.range config.icntInjectionPortsPerCore).foldlM
        (fun s noc => corePort config s core noc) s) s = some t) : P t := by
  refine Loops.foldlM_induction h hs fun s core hcore t hs h => ?_
  refine Loops.foldlM_induction h hs fun s noc hnoc t hs h => ?_
  obtain ⟨u, hu, h⟩ := Option.bind_eq_some_iff.mp h
  have hsent := hsend s u core noc hs (List.mem_range.mp hcore) (List.mem_range.mp hnoc) hu
  exact htake u t core noc hsent (List.mem_range.mp hcore) (List.mem_range.mp hnoc) h

/-- What a call on a core, an answer and the parts of an interconnect tick keep, a step keeps. -/
theorem step_induction {P : MemorySystem → Prop} {a : Act}
    (hcore : ∀ s t core act, P s → core < config.numCores → onCore config s core act = some t →
      act = .cycle ∨ act = .popFinishedTile ∨ (∃ op, act = .issue op) → P t)
    (hanswer : ∀ s ch i m, P s → ch < config.dramChannels →
      (s.dram.waiting ch)[i]? = some m →
      P { s with dram := {
        waiting := Function.update s.dram.waiting ch ((s.dram.waiting ch).eraseIdx i)
        responses := Function.update s.dram.responses ch
          (s.dram.responses ch ++ [m.answered]) } })
    (hsend : ∀ s t core noc, P s → core < config.numCores →
      noc < config.icntInjectionPortsPerCore →
      sendRequest config s core (core * config.icntInjectionPortsPerCore + noc) = some t → P t)
    (htake : ∀ s t core noc, P s → core < config.numCores →
      noc < config.icntInjectionPortsPerCore →
      takeResponse s core (core * config.icntInjectionPortsPerCore + noc) = some t → P t)
    (hto : ∀ s t full mem, P s → mem < config.dramChannels →
      toDram config s full mem = some t → P t)
    (hfrom : ∀ s t mem, P s → mem < config.dramChannels → fromDram config s mem = some t → P t)
    (hcycle : ∀ s, P s → P { s with icnt := s.icnt.cycle })
    (hs : P s) (h : step config s a = some t) : P t := by
  cases a with
  | issue core op =>
    simp only [step] at h
    split at h
    · next hlt => exact hcore s t core _ hs hlt h (.inr (.inr ⟨op, rfl⟩))
    · cases h
  | popFinishedTile core =>
    simp only [step] at h
    split at h
    · next hlt => exact hcore s t core _ hs hlt h (.inr (.inl rfl))
    · cases h
  | coreCycle core =>
    simp only [step] at h
    split at h
    · next hlt => exact hcore s t core _ hs hlt h (.inl rfl)
    · cases h
  | answer channel i =>
    simp only [step] at h
    split at h
    · cases h
    · next m hm =>
      split at h
      · next hlt =>
        obtain rfl := Option.some.inj h
        exact hanswer s channel i m hs hlt hm
      · cases h
  | icnt full =>
    obtain ⟨s₁, h₁, h⟩ := Option.bind_eq_some_iff.mp h
    obtain ⟨s₂, h₂, h⟩ := Option.bind_eq_some_iff.mp h
    obtain rfl := Option.some.inj h
    have hports : P s₁ := ports_induction hsend htake hs h₁
    have hmemories : P s₂ := by
      refine Loops.foldlM_induction h₂ hports fun s mem hmem t hs h => ?_
      obtain ⟨u, hu, h⟩ := Option.bind_eq_some_iff.mp h
      have hpushed := hto s u full mem hs (List.mem_range.mp hmem) hu
      exact hfrom u t mem hpushed (List.mem_range.mp hmem) h
    exact hcycle s₂ hmemories

/-! ## Routing is kept -/

theorem Wires.onCore {act : Core.Act} (h : Wires config s) (ht : onCore config s core act = some t) :
    Wires config t := by
  obtain ⟨c, -, ht⟩ := Option.bind_eq_some_iff.mp ht
  obtain rfl := Option.some.inj ht
  exact ⟨h.nNodes, h.carries, h.waiting, h.responses⟩

theorem Wires.answer {ch i : Nat} (h : Wires config s) (hm : (s.dram.waiting ch)[i]? = some m) :
    Wires config { s with dram := {
      waiting := Function.update s.dram.waiting ch ((s.dram.waiting ch).eraseIdx i)
      responses := Function.update s.dram.responses ch
        (s.dram.responses ch ++ [m.answered]) } } := by
  have hmem := List.mem_of_getElem? hm
  refine ⟨h.nNodes, h.carries, fun ch' m' hm' => ?_, fun ch' m' hm' => ?_⟩
  · by_cases heq : ch' = ch
    · subst heq
      simp only [Function.update_self] at hm'
      exact h.waiting ch' m' (List.mem_of_mem_eraseIdx hm')
    · simp only [Function.update_of_ne heq] at hm'
      exact h.waiting ch' m' hm'
  · by_cases heq : ch' = ch
    · subst heq
      simp only [Function.update_self, List.mem_append, List.mem_singleton] at hm'
      rcases hm' with hm' | rfl
      · exact h.responses ch' m' hm'
      · exact ⟨h.waiting ch' m hmem, rfl⟩
    · simp only [Function.update_of_ne heq] at hm'
      exact h.responses ch' m' hm'

theorem Wires.sendRequest {port : Nat} (hcores : config.numCores ≤ 2 ^ 32) (h : Wires config s)
    (hcore : core < config.numCores) (hports : 0 < config.icntInjectionPortsPerCore)
    (ht : MemorySystem.sendRequest config s core port = some t) : Wires config t := by
  rcases sendRequest_cases ht with rfl | ⟨front, rest, dest, -, hdest, rfl⟩
  · exact h
  · have hfrom : FromCore config { front with coreId := BitVec.ofNat 32 core } := by
      refine ⟨?_, hports⟩
      change core % 2 ^ 32 < config.numCores
      rwa [Nat.mod_eq_of_lt (hcore.trans_le hcores)]
    exact ⟨h.nNodes, h.carries.push ⟨hfrom, hdest⟩, h.waiting, h.responses⟩

theorem Wires.takeResponse {port : Nat} (h : Wires config s)
    (ht : MemorySystem.takeResponse s core port = some t) : Wires config t := by
  rcases takeResponse_cases ht with rfl | ⟨response, c, icnt, -, -, hpop, rfl⟩
  · exact h
  · exact ⟨(SimpleInterconnect.pop_nNodes hpop).trans h.nNodes, h.carries.pop hpop, h.waiting,
      h.responses⟩

theorem Wires.toDram {full : Nat → Bool} (h : Wires config s)
    (ht : MemorySystem.toDram config s full mem = some t) : Wires config t := by
  rcases toDram_cases ht with rfl | ⟨front, icnt, htop, hpop, rfl⟩
  · exact h
  · have hfront : Routed config _ front :=
      h.carries.outBuffers _ front (List.mem_of_mem_head? htop)
    refine ⟨(SimpleInterconnect.pop_nNodes hpop).trans h.nNodes, h.carries.pop hpop,
      fun ch' m' hm' => ?_, h.responses⟩
    by_cases heq : ch' = mem
    · subst heq
      simp only [Function.update_self, List.mem_append, List.mem_singleton] at hm'
      rcases hm' with hm' | rfl
      · exact h.waiting ch' m' hm'
      · exact hfront.1
    · simp only [Function.update_of_ne heq] at hm'
      exact h.waiting ch' m' hm'

theorem Wires.fromDram (h : Wires config s)
    (ht : MemorySystem.fromDram config s mem = some t) : Wires config t := by
  rcases fromDram_cases ht with rfl | ⟨front, rest, dest, hres, hdest, rfl⟩
  · exact h
  · have hfront := h.responses mem front (hres ▸ List.mem_cons_self)
    refine ⟨h.nNodes, h.carries.push ⟨hfront.1, hdest⟩, h.waiting, fun ch' m' hm' => ?_⟩
    by_cases heq : ch' = mem
    · subst heq
      simp only [Function.update_self] at hm'
      exact h.responses ch' m' (hres ▸ List.mem_cons_of_mem _ hm')
    · simp only [Function.update_of_ne heq] at hm'
      exact h.responses ch' m' hm'

theorem Wires.cycle (h : Wires config s) : Wires config { s with icnt := s.icnt.cycle } :=
  ⟨(SimpleInterconnect.cycle_nNodes s.icnt).trans h.nNodes, h.carries.cycle, h.waiting,
    h.responses⟩

end MemorySystem

end OnnxSim
