import OnnxSim.Simulator.Banked
import OnnxSim.Simulator.Routes

/-!
# The parts of a tick

A step of a `BankedSystem` is a call on a core, an answer of the DRAM, a tick of the banks, or a tick of
the interconnect, which is a long sequence of transfers between two neighbours. A predicate that is kept
by each transfer (`BankedSystem.Kept`) is kept by a step (`BankedSystem.Kept.step`), with and without L2.
-/

namespace OnnxSim

namespace BankedSystem

/-- The node of memory channel `mem`. -/
def memNode (config : SimulationConfig) (mem : Nat) : Nat :=
  config.numCores * config.icntInjectionPortsPerCore + mem

/-- `port` is a port of core `core`. -/
def IsPort (config : SimulationConfig) (core port : Nat) : Prop :=
  core < config.numCores ∧ ∃ noc < config.icntInjectionPortsPerCore,
    port = core * config.icntInjectionPortsPerCore + noc

variable {config : SimulationConfig} {P : BankedSystem → Prop} {s t : BankedSystem} {core mem : Nat}
  {full fullWb : Nat → Bool}

/-- `P` is kept by every transfer of a tick. Without L2 the channels are served by `toDram` and
`fromDram`, with L2 by the five transfers of a bank. -/
structure Kept (config : SimulationConfig) (P : BankedSystem → Prop) : Prop where
  answer : ∀ s ch i m, P s → ch < config.dramChannels → (s.dram.waiting ch)[i]? = some m →
    P { s with dram := {
      waiting := Function.update s.dram.waiting ch ((s.dram.waiting ch).eraseIdx i)
      responses := Function.update s.dram.responses ch (s.dram.responses ch ++ [m.answered]) } }
  send : ∀ s core port dest front rest, P s → IsPort config core port →
    (s.cores core).requestQueue = front :: rest →
    getDestNode config { front with coreId := BitVec.ofNat 32 core } = some dest →
    P { s with
      icnt := s.icnt.push port dest { front with coreId := BitVec.ofNat 32 core }
      cores := Function.update s.cores core { s.cores core with requestQueue := rest } }
  take : ∀ s core port response c icnt, P s → IsPort config core port →
    s.icnt.top port = some response → (s.cores core).pushMemoryResponse response = some c →
    s.icnt.pop port = some icnt →
    P { s with
      cores := Function.update s.cores core c
      icnt := icnt
      consumed := Function.update s.consumed core (s.consumed core ++ [response]) }
  toDram : ∀ s mem front icnt, P s → config.useL2 = false → mem < config.dramChannels →
    s.icnt.top (memNode config mem) = some front → s.icnt.pop (memNode config mem) = some icnt →
    P { s with
      icnt := icnt
      dram := { s.dram with
        waiting := Function.update s.dram.waiting mem (s.dram.waiting mem ++ [front]) } }
  fromDram : ∀ s mem front rest dest, P s → config.useL2 = false → mem < config.dramChannels →
    s.dram.responses mem = front :: rest → getDestNode config front = some dest →
    P { s with
      icnt := s.icnt.push (memNode config mem) dest front
      dram := { s.dram with responses := Function.update s.dram.responses mem rest } }
  toBank : ∀ s mem front icnt, P s → config.useL2 = true → mem < config.dramChannels →
    s.icnt.top (memNode config mem) = some front → s.icnt.pop (memNode config mem) = some icnt →
    P ({ s with icnt := icnt }.setBank mem ((s.banks mem).pushRequest front))
  missToDram : ∀ s mem miss rest, P s → config.useL2 = true → mem < config.dramChannels →
    (s.banks mem).missQ = miss :: rest →
    P ((s.pushDram mem miss).setBank mem (s.banks mem).popMissRequest)
  wbToDram : ∀ s mem wb rest, P s → config.useL2 = true → mem < config.dramChannels →
    (s.banks mem).wbQ = wb :: rest →
    P ((s.pushDram mem wb).setBank mem (s.banks mem).popWbRequest)
  dramToBank : ∀ s mem resp rest, P s → config.useL2 = true → mem < config.dramChannels →
    s.dram.responses mem = resp :: rest →
    P ({ s with dram := { s.dram with
      responses := Function.update s.dram.responses mem rest } }.setBank mem
        ((s.banks mem).pushMemoryResponse resp))
  fromBank : ∀ s mem resp rest dest, P s → config.useL2 = true → mem < config.dramChannels →
    (s.banks mem).outQ = resp :: rest → resp.coreId.toNat < config.numCores →
    getDestNode config resp = some dest →
    P ({ s with icnt := s.icnt.push (memNode config mem) dest resp }.setBank mem
      (s.banks mem).popResponse)
  l2 : ∀ s, P s → config.useL2 = true →
    P { s with banks := fun mem =>
      if mem < config.dramChannels then (s.banks mem).cycle else s.banks mem }
  cycle : ∀ s, P s → P { s with icnt := s.icnt.cycle }

namespace Kept

variable (hk : Kept config P)

include hk

/-- The loop over the ports, which is the same with and without L2. -/
theorem ports {base : MemorySystem} (h : P s)
    (hbase : (List.range config.numCores).foldlM
      (fun s core => (List.range config.icntInjectionPortsPerCore).foldlM
        (fun s noc => MemorySystem.corePort config s core noc) s) s.toMemorySystem = some base) :
    P { s with toMemorySystem := base } := by
  apply MemorySystem.ports_induction (P := fun base => P { s with toMemorySystem := base })
    ?_ ?_ h hbase
  · intro u v core noc hu hcore hnoc hv
    rcases MemorySystem.sendRequest_cases hv with rfl | ⟨front, rest, dest, hqueue, hdest, rfl⟩
    · exact hu
    · exact hk.send _ core _ dest front rest hu ⟨hcore, noc, hnoc, rfl⟩ hqueue hdest
  · intro u v core noc hu hcore hnoc hv
    rcases MemorySystem.takeResponse_cases hv with rfl | ⟨response, c, icnt, htop, hc, hpop, rfl⟩
    · exact hu
    · exact hk.take _ core _ response c icnt hu ⟨hcore, noc, hnoc, rfl⟩ htop hc hpop

theorem memory {base : MemorySystem} (h : P s) (hl2 : config.useL2 = false)
    (hmem : mem < config.dramChannels)
    (hbase : MemorySystem.memory config s.toMemorySystem full mem = some base) :
    P { s with toMemorySystem := base } := by
  obtain ⟨u, hu, hbase⟩ := Option.bind_eq_some_iff.mp hbase
  have hto : P { s with toMemorySystem := u } := by
    rcases MemorySystem.toDram_cases hu with rfl | ⟨front, icnt, htop, hpop, rfl⟩
    · exact h
    · exact hk.toDram s mem front icnt h hl2 hmem htop hpop
  rcases MemorySystem.fromDram_cases hbase with rfl | ⟨front, rest, dest, hres, hdest, rfl⟩
  · exact hto
  · exact hk.fromDram _ mem front rest dest hto hl2 hmem hres hdest

theorem toBank_keeps (h : P s) (hl2 : config.useL2 = true) (hmem : mem < config.dramChannels)
    (ht : BankedSystem.toBank config s mem = some t) : P t := by
  unfold BankedSystem.toBank at ht
  dsimp only at ht
  split at ht
  · exact Option.some.inj ht ▸ h
  · rename_i front rest hout
    obtain ⟨icnt, hpop, ht⟩ := Option.bind_eq_some_iff.mp ht
    obtain rfl := Option.some.inj ht
    have htop : s.icnt.top (memNode config mem) = some front := by
      simp [SimpleInterconnect.top, memNode, hout]
    exact hk.toBank s mem front icnt h hl2 hmem htop hpop

theorem missToDram_keeps (h : P s) (hl2 : config.useL2 = true) (hmem : mem < config.dramChannels) :
    P (s.missToDram full mem) := by
  unfold BankedSystem.missToDram
  split
  · exact h
  · rename_i miss rest hq
    split
    · exact h
    · exact hk.missToDram s mem miss rest h hl2 hmem hq

theorem wbToDram_keeps (h : P s) (hl2 : config.useL2 = true) (hmem : mem < config.dramChannels) :
    P (s.wbToDram full mem) := by
  unfold BankedSystem.wbToDram
  split
  · exact h
  · rename_i wb rest hq
    split
    · exact h
    · exact hk.wbToDram s mem wb rest h hl2 hmem hq

theorem dramToBank_keeps (h : P s) (hl2 : config.useL2 = true) (hmem : mem < config.dramChannels) :
    P (s.dramToBank mem) := by
  unfold BankedSystem.dramToBank
  split
  · exact h
  · rename_i resp rest hres
    exact hk.dramToBank s mem resp rest h hl2 hmem hres

theorem fromBank_keeps (h : P s) (hl2 : config.useL2 = true) (hmem : mem < config.dramChannels)
    (ht : BankedSystem.fromBank config s mem = some t) : P t := by
  unfold BankedSystem.fromBank at ht
  dsimp only at ht
  split at ht
  · exact Option.some.inj ht ▸ h
  · rename_i resp rest hq
    split at ht
    · exact Option.some.inj ht ▸ h
    · rename_i hcore
      simp only [SimpleInterconnect.isFull, Bool.false_eq_true, if_false] at ht
      obtain ⟨dest, hdest, ht⟩ := Option.bind_eq_some_iff.mp ht
      obtain rfl := Option.some.inj ht
      have hlt : resp.coreId.toNat < config.numCores := by
        by_contra hge
        exact hcore (.inl (Nat.le_of_not_lt hge))
      exact hk.fromBank s mem resp rest dest h hl2 hmem hq hlt hdest

theorem bank (h : P s) (hl2 : config.useL2 = true) (hmem : mem < config.dramChannels)
    (ht : BankedSystem.bank config s full fullWb mem = some t) : P t := by
  obtain ⟨u, hu, ht⟩ := Option.bind_eq_some_iff.mp ht
  have hmiss : P (u.missToDram full mem) :=
    hk.missToDram_keeps (hk.toBank_keeps h hl2 hmem hu) hl2 hmem
  have hwb : P ((u.missToDram full mem).wbToDram fullWb mem) := hk.wbToDram_keeps hmiss hl2 hmem
  exact hk.fromBank_keeps (hk.dramToBank_keeps hwb hl2 hmem) hl2 hmem ht

theorem icntTick (h : P s) (ht : BankedSystem.icntTick config s full fullWb = some t) : P t := by
  unfold BankedSystem.icntTick at ht
  split at ht
  · rename_i hl2
    obtain ⟨base, hbase, ht⟩ := Option.bind_eq_some_iff.mp ht
    obtain ⟨u, hu, ht⟩ := Option.bind_eq_some_iff.mp ht
    obtain rfl := Option.some.inj ht
    refine hk.cycle u (Loops.foldlM_induction hu (hk.ports h hbase) ?_)
    exact fun s mem hmem t hs ht => hk.bank hs hl2 (List.mem_range.mp hmem) ht
  · rename_i hl2
    obtain ⟨base, hbase, ht⟩ := Option.bind_eq_some_iff.mp ht
    obtain rfl := Option.some.inj ht
    obtain ⟨s₁, h₁, hbase⟩ := Option.bind_eq_some_iff.mp hbase
    obtain ⟨s₂, h₂, hbase⟩ := Option.bind_eq_some_iff.mp hbase
    obtain rfl := Option.some.inj hbase
    have hmemories : P { s with toMemorySystem := s₂ } := by
      refine Loops.foldlM_induction (P := fun base => P { s with toMemorySystem := base }) h₂
        (hk.ports h h₁) fun u mem hmem v hu hv => ?_
      exact hk.memory (s := { s with toMemorySystem := u }) hu (Bool.eq_false_iff.mpr hl2)
        (List.mem_range.mp hmem) hv
    exact hk.cycle _ hmemories

/-- What the transfers and the calls on the cores keep, a step keeps. -/
theorem step {a : Act}
    (hcall : ∀ core act c, core < config.numCores →
      Core.step config { s.cores core with nextAccessId := s.nextAccessId } act = some c →
      (act = .cycle ∧ a = .coreCycle core ∨ act = .popFinishedTile ∧ a = .popFinishedTile core ∨
        ∃ op, act = .issue op ∧ a = .issue core op) →
      P { s with cores := Function.update s.cores core c, nextAccessId := c.nextAccessId })
    (h : P s) (ht : BankedSystem.step config s a = some t) : P t := by
  have honCore : ∀ core act, core < config.numCores →
      (act = .cycle ∧ a = .coreCycle core ∨ act = .popFinishedTile ∧ a = .popFinishedTile core ∨
        ∃ op, act = .issue op ∧ a = .issue core op) →
      ∀ base, MemorySystem.onCore config s.toMemorySystem core act = some base →
        P { s with toMemorySystem := base } := by
    intro core act hcore hact base hbase
    obtain ⟨c, hc, hbase⟩ := Option.bind_eq_some_iff.mp hbase
    obtain rfl := Option.some.inj hbase
    exact hcall core act c hcore hc hact
  cases a with
  | issue core op =>
    obtain ⟨base, hbase, ht⟩ := Option.bind_eq_some_iff.mp ht
    obtain rfl := Option.some.inj ht
    simp only [MemorySystem.step] at hbase
    split at hbase
    · rename_i hcore
      exact honCore core _ hcore (.inr (.inr ⟨op, rfl, rfl⟩)) base hbase
    · cases hbase
  | popFinishedTile core =>
    obtain ⟨base, hbase, ht⟩ := Option.bind_eq_some_iff.mp ht
    obtain rfl := Option.some.inj ht
    simp only [MemorySystem.step] at hbase
    split at hbase
    · rename_i hcore
      exact honCore core _ hcore (.inr (.inl ⟨rfl, rfl⟩)) base hbase
    · cases hbase
  | coreCycle core =>
    obtain ⟨base, hbase, ht⟩ := Option.bind_eq_some_iff.mp ht
    obtain rfl := Option.some.inj ht
    simp only [MemorySystem.step] at hbase
    split at hbase
    · rename_i hcore
      exact honCore core _ hcore (.inl ⟨rfl, rfl⟩) base hbase
    · cases hbase
  | answer channel i =>
    obtain ⟨base, hbase, ht⟩ := Option.bind_eq_some_iff.mp ht
    obtain rfl := Option.some.inj ht
    simp only [MemorySystem.step] at hbase
    split at hbase
    · cases hbase
    · rename_i m hm
      split at hbase
      · rename_i hch
        obtain rfl := Option.some.inj hbase
        exact hk.answer s channel i m h hch hm
      · cases hbase
  | l2 =>
    simp only [BankedSystem.step, l2Tick] at ht
    split at ht
    · rename_i hl2
      obtain rfl := Option.some.inj ht
      exact hk.l2 s h hl2
    · cases ht
  | icnt full fullWb => exact hk.icntTick h ht

end Kept

end BankedSystem

end OnnxSim
