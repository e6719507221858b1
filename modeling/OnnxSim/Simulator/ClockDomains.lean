import Mathlib.Algebra.Order.Ring.Nat
import Mathlib.Data.BitVec
import OnnxSim.Lib.Clocks

/-!
# The clock domains

`Simulator::set_cycle_mask`: the cores, the DRAM and the interconnect have times and periods of their own,
in picoseconds, and a call lets those tick whose time is the least. The three times are `uint64_t`. As long
as none of them wraps, a round of the three clocks is one of `Clocks.Ticks`.
-/

namespace OnnxSim

inductive Domain
  | core | dram | icnt
  deriving DecidableEq, Repr

instance : Fintype Domain := ⟨{.core, .dram, .icnt}, fun d => by cases d <;> simp⟩

instance : Nonempty Domain := ⟨.core⟩

structure ClockDomains where
  corePeriod : Nat
  dramPeriod : Nat
  icntPeriod : Nat
  coreTime : Nat := 0
  dramTime : Nat := 0
  icntTime : Nat := 0
  /-- Not initialised by the constructor. -/
  cycleMask : BitVec 32

namespace ClockDomains

def CORE_MASK : BitVec 32 := 0x1 <<< 1
def DRAM_MASK : BitVec 32 := 0x1 <<< 2
def ICNT_MASK : BitVec 32 := 0x1 <<< 3

/-- The sum of two `uint64_t`. -/
def add64 (a b : Nat) : Nat := (a + b) % 2 ^ 64

/-- `Simulator::set_cycle_mask`. -/
def setCycleMask (s : ClockDomains) : ClockDomains :=
  let s := { s with cycleMask := 0 }
  let minimumTime := min (min s.coreTime s.dramTime) s.icntTime
  let s := if s.coreTime ≤ minimumTime then
      { s with cycleMask := s.cycleMask ||| CORE_MASK, coreTime := add64 s.coreTime s.corePeriod }
    else s
  let s := if s.dramTime ≤ minimumTime then
      { s with cycleMask := s.cycleMask ||| DRAM_MASK, dramTime := add64 s.dramTime s.dramPeriod }
    else s
  if s.icntTime ≤ minimumTime then
    { s with cycleMask := s.cycleMask ||| ICNT_MASK, icntTime := add64 s.icntTime s.icntPeriod }
  else s

def time (s : ClockDomains) : Domain → Nat
  | .core => s.coreTime
  | .dram => s.dramTime
  | .icnt => s.icntTime

def period (s : ClockDomains) : Domain → Nat
  | .core => s.corePeriod
  | .dram => s.dramPeriod
  | .icnt => s.icntPeriod

def maskOf : Domain → BitVec 32
  | .core => CORE_MASK
  | .dram => DRAM_MASK
  | .icnt => ICNT_MASK

/-- The bit of the domain is set in the mask. -/
def Ticked (s : ClockDomains) (d : Domain) : Prop := s.cycleMask &&& maskOf d ≠ 0

instance (s : ClockDomains) (d : Domain) : Decidable (s.Ticked d) :=
  inferInstanceAs (Decidable (_ ≠ _))

/-- The constructor's times, for any periods. -/
def start (periods : Domain → Nat) (cycleMask : BitVec 32) : ClockDomains where
  corePeriod := periods .core
  dramPeriod := periods .dram
  icntPeriod := periods .icnt
  cycleMask := cycleMask

/-- The state after `n` calls. -/
def calls (s : ClockDomains) (n : Nat) : ClockDomains := setCycleMask^[n] s

/-- The number of the first `n` calls in which the bit of the domain was set. -/
def ticks (s : ClockDomains) (d : Domain) (n : Nat) : Nat :=
  (List.range n).countP fun k => (s.calls (k + 1)).Ticked d

/-! ## One call -/

variable {s : ClockDomains}

theorem least_iff (s : ClockDomains) (d : Domain) : Clocks.Least s.time d ↔
    s.time d ≤ min (min s.coreTime s.dramTime) s.icntTime := by
  constructor
  · exact fun h => le_min (le_min (h .core) (h .dram)) (h .icnt)
  · intro h j
    cases j
    · exact h.trans ((min_le_left _ _).trans (min_le_left _ _))
    · exact h.trans ((min_le_left _ _).trans (min_le_right _ _))
    · exact h.trans (min_le_right _ _)

/-- A call sets the bits of the domains whose time is the least, and adds their periods. -/
theorem setCycleMask_spec (s : ClockDomains) (d : Domain) :
    (s.setCycleMask.Ticked d ↔ Clocks.Least s.time d) ∧ s.setCycleMask.period d = s.period d ∧
      s.setCycleMask.time d =
        if s.time d ≤ min (min s.coreTime s.dramTime) s.icntTime then add64 (s.time d) (s.period d)
        else s.time d := by
  rw [least_iff]
  generalize hmin : min (min s.coreTime s.dramTime) s.icntTime = minimumTime
  unfold setCycleMask Ticked
  simp only [hmin]
  by_cases hcore : s.coreTime ≤ minimumTime <;> by_cases hdram : s.dramTime ≤ minimumTime <;>
    by_cases hicnt : s.icntTime ≤ minimumTime <;> cases d <;>
    simp [hcore, hdram, hicnt, time, period, maskOf, CORE_MASK, DRAM_MASK, ICNT_MASK]

@[simp] theorem setCycleMask_period (s : ClockDomains) : s.setCycleMask.period = s.period :=
  funext fun d => (setCycleMask_spec s d).2.1

theorem ticked_setCycleMask (s : ClockDomains) (d : Domain) :
    s.setCycleMask.Ticked d ↔ Clocks.Least s.time d := (setCycleMask_spec s d).1

/-- No time that a call advances reaches 2^64. -/
def Fits (s : ClockDomains) : Prop :=
  ∀ d, Clocks.Least s.time d → s.time d + s.period d < 2 ^ 64

theorem Fits.ticks (h : s.Fits) : Clocks.Ticks s.period s.time s.setCycleMask.time := by
  constructor
  · intro d hd
    rw [(setCycleMask_spec s d).2.2, if_pos ((least_iff s d).mp hd)]
    exact Nat.mod_eq_of_lt (h d hd)
  · intro d hd
    rw [(setCycleMask_spec s d).2.2, if_neg (mt (least_iff s d).mpr hd)]

/-! ## Any number of calls -/

theorem calls_succ (s : ClockDomains) (n : Nat) : s.calls (n + 1) = (s.calls n).setCycleMask :=
  Function.iterate_succ_apply' _ _ _

theorem calls_period (s : ClockDomains) (n : Nat) : (s.calls n).period = s.period := by
  induction n with
  | zero => rfl
  | succ n ih => rw [calls_succ, setCycleMask_period, ih]

theorem ticks_succ (s : ClockDomains) (d : Domain) (n : Nat) :
    s.ticks d (n + 1) = s.ticks d n + if (s.calls (n + 1)).Ticked d then 1 else 0 := by
  unfold ticks
  rw [List.range_succ, List.countP_append, List.countP_singleton]
  simp

/-- What holds of the clocks after some calls. -/
structure InStep (s : ClockDomains) (n : Nat) : Prop where
  times : ∀ d, (s.calls n).time d = s.period d * s.ticks d n
  skew : ∀ i j, (s.calls n).time i ≤ (s.calls n).time j + s.period i

theorem InStep.call {n : Nat} (h : s.InStep n) (hfits : (s.calls n).Fits) : s.InStep (n + 1) := by
  have hticks := hfits.ticks
  rw [← calls_succ, calls_period] at hticks
  have hskew : Clocks.InStep s.period (s.calls n).time := h.skew
  refine ⟨fun d => ?_, hskew.tick hticks⟩
  have htime : (s.calls n).time d = s.ticks d n • s.period d := by
    rw [h.times d, Nat.nsmul_eq_mul, Nat.mul_comm]
  rw [ticks_succ]
  have hticked : (s.calls (n + 1)).Ticked d ↔ Clocks.Least (s.calls n).time d := by
    rw [calls_succ]
    exact ticked_setCycleMask _ d
  rcases hticks.nsmul htime with ⟨htime, hleast⟩ | ⟨htime, hleast⟩
  · rw [if_neg (mt hticked.mp hleast), htime, Nat.nsmul_eq_mul, Nat.mul_comm, Nat.add_zero]
  · rw [if_pos (hticked.mpr hleast), htime, Nat.nsmul_eq_mul, Nat.mul_comm]

theorem inStep_start (periods : Domain → Nat) (cycleMask : BitVec 32) {n : Nat}
    (hfits : ∀ k < n, ((start periods cycleMask).calls k).Fits) :
    (start periods cycleMask).InStep n := by
  induction n with
  | zero =>
    refine ⟨fun d => ?_, fun i j => ?_⟩
    · cases d <;> rfl
    · cases i <;> exact Nat.zero_le _
  | succ n ih =>
    have hbefore := ih fun k hk => hfits k (hk.trans (Nat.lt_succ_self n))
    exact hbefore.call (hfits n (Nat.lt_succ_self n))

/-- The clocks of the three domains stay in step, however long they run. -/
theorem clocks_in_step (periods : Domain → Nat) (cycleMask : BitVec 32)
    (n : Nat) (hn : 1 ≤ n) (hfits : ∀ k < n, ((start periods cycleMask).calls k).Fits) :
    ((start periods cycleMask).calls n).cycleMask ≠ 0 ∧
      (∀ d, ((start periods cycleMask).calls n).time d =
        periods d * (start periods cycleMask).ticks d n) ∧
      (∀ i j, (((start periods cycleMask).calls n).time i : Int) -
        ((start periods cycleMask).calls n).time j ≤ periods i) ∧
      ∀ k < n, ∀ d, ((start periods cycleMask).calls (k + 1)).Ticked d ↔
        ∀ j, ((start periods cycleMask).calls k).time d ≤ ((start periods cycleMask).calls k).time j := by
  have hstep := inStep_start periods cycleMask hfits
  have hperiod : (start periods cycleMask).period = periods := by
    funext d
    cases d <;> rfl
  have hticked : ∀ k d, ((start periods cycleMask).calls (k + 1)).Ticked d ↔
      Clocks.Least ((start periods cycleMask).calls k).time d := by
    intro k d
    rw [calls_succ]
    exact ticked_setCycleMask _ d
  refine ⟨?_, ?_, ?_, fun k _ d => hticked k d⟩
  · obtain ⟨k, rfl⟩ := Nat.exists_eq_succ_of_ne_zero (Nat.one_le_iff_ne_zero.mp hn)
    obtain ⟨d, hd⟩ := Clocks.exists_least ((start periods cycleMask).calls k).time
    intro hzero
    refine (hticked k d).mpr hd ?_
    rw [hzero]
    exact BitVec.zero_and
  · intro d
    rw [hstep.times d, hperiod]
  · intro i j
    have hskew := hstep.skew i j
    rw [hperiod] at hskew
    omega

/-- A core of 1 GHz, a DRAM of 600 MHz and an interconnect of 2 GHz after four calls. -/
theorem clocks_in_step_four :
    let periods : Domain → Nat := fun d => match d with
      | .core => 1000
      | .dram => 1666
      | .icnt => 500
    ((start periods 0).calls 4).cycleMask ≠ 0 := by
  intro periods
  refine (clocks_in_step periods 0 4 (by decide) fun k hk d _ => ?_).1
  have hfits : ∀ k < 4, ∀ d ∈ [Domain.core, .dram, .icnt],
      ((start periods 0).calls k).time d + ((start periods 0).calls k).period d < 2 ^ 64 := by
    decide
  exact hfits k hk d (by cases d <;> decide)

end ClockDomains

end OnnxSim
