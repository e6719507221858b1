import Mathlib.Data.List.Basic
import Mathlib.Order.Basic

/-!
# Counting up in a machine word

`for (x = 0; x < bound; x += step)` with a counter that has `m` values and starts over at zero. The loop
ends at the first multiple of the step that is not below the bound once it is reduced modulo `m`
(`upTo_eq_some_iff`). So where the counter does not start over before the bound, the loop visits the
multiples of the step below it (`upTo_of_lt`), and with a step that divides `m` it does so whenever it
ends at all (`eq_of_upTo_of_dvd`).
-/

namespace Counters

variable {m bound step : Nat}

/-- The values of `x` in `for (; x < bound; x += step)`. -/
def visits (m bound step : Nat) : Nat → Nat → Option (List Nat)
  | 0, _ => none
  | fuel + 1, x =>
    if x < bound then (visits m bound step fuel ((x + step) % m)).map (x :: ·) else some []

/-- The values of `x` in `for (x = 0; x < bound; x += step)`. A loop that has not ended after `m` turns
does not end. -/
def upTo (m bound step : Nat) : Option (List Nat) := visits m bound step m 0

/-- The number of steps up to the bound. -/
def turns (bound step : Nat) : Nat := (bound + step - 1) / step

theorem visits_eq_some_iff (hm : 0 < m) {fuel x : Nat} (hx : x < m) {l : List Nat} :
    visits m bound step fuel x = some l ↔ ∃ n < fuel,
      l = (List.range n).map (fun i => (x + i * step) % m) ∧
        (∀ i < n, (x + i * step) % m < bound) ∧ bound ≤ (x + n * step) % m := by
  induction fuel generalizing x l with
  | zero => exact iff_of_false (by simp [visits]) (by simp)
  | succ fuel ih =>
    have hnext : ∀ i, ((x + step) % m + i * step) % m = (x + (i + 1) * step) % m := by
      intro i
      rw [Nat.mod_add_mod, Nat.succ_mul, Nat.add_assoc, Nat.add_comm step]
    unfold visits
    split
    · rename_i hlt
      rw [Option.map_eq_some_iff]
      constructor
      · rintro ⟨rest, hrest, rfl⟩
        obtain ⟨n, hn, rfl, hbelow, hend⟩ := (ih (Nat.mod_lt _ hm)).mp hrest
        refine ⟨n + 1, by omega, ?_, ?_, ?_⟩
        · rw [List.range_succ_eq_map, List.map_cons, List.map_map, Nat.zero_mul, Nat.add_zero,
            Nat.mod_eq_of_lt hx]
          congr 1
          exact List.map_congr_left fun i _ => hnext i
        · intro i hi
          cases i with
          | zero => rwa [Nat.zero_mul, Nat.add_zero, Nat.mod_eq_of_lt hx]
          | succ i =>
            rw [← hnext]
            exact hbelow i (by omega)
        · rwa [← hnext]
      · rintro ⟨n, hn, rfl, hbelow, hend⟩
        cases n with
        | zero =>
          rw [Nat.zero_mul, Nat.add_zero, Nat.mod_eq_of_lt hx] at hend
          omega
        | succ n =>
          refine ⟨_, (ih (Nat.mod_lt _ hm)).mpr ⟨n, by omega, rfl, ?_, ?_⟩, ?_⟩
          · intro i hi
            rw [hnext]
            exact hbelow (i + 1) (by omega)
          · rwa [hnext]
          · rw [List.range_succ_eq_map, List.map_cons, List.map_map, Nat.zero_mul, Nat.add_zero,
              Nat.mod_eq_of_lt hx]
            congr 1
            exact List.map_congr_left fun i _ => hnext i
    · rename_i hend
      constructor
      · intro h
        obtain rfl := Option.some.inj h
        refine ⟨0, by omega, rfl, by simp, ?_⟩
        rw [Nat.zero_mul, Nat.add_zero, Nat.mod_eq_of_lt hx]
        omega
      · rintro ⟨n, -, rfl, hbelow, -⟩
        cases n with
        | zero => rfl
        | succ n =>
          have hfirst := hbelow 0 (by omega)
          rw [Nat.zero_mul, Nat.add_zero, Nat.mod_eq_of_lt hx] at hfirst
          omega

/-- The loop ends at the first multiple of the step that is, reduced, not below the bound. -/
theorem upTo_eq_some_iff (hm : 0 < m) {l : List Nat} : upTo m bound step = some l ↔
    ∃ n, l = (List.range n).map (fun i => i * step % m) ∧ (∀ i < n, i * step % m < bound) ∧
      bound ≤ n * step % m := by
  unfold upTo
  rw [visits_eq_some_iff hm hm]
  simp only [Nat.zero_add]
  constructor
  · rintro ⟨n, -, h⟩
    exact ⟨n, h⟩
  · rintro ⟨n, hl, hbelow, hend⟩
    refine ⟨n, ?_, hl, hbelow, hend⟩
    -- after `m` turns the counter is back where it was
    refine Nat.lt_of_not_le fun hle => ?_
    have hback : (n - m) * step % m = n * step % m := by
      rw [← Nat.add_mul_mod_self_left ((n - m) * step) m step, ← Nat.add_mul, Nat.sub_add_cancel hle]
    have hbefore := hbelow (n - m) (by omega)
    omega

theorem upTo_zero (hm : 0 < m) (step : Nat) : upTo m 0 step = some [] :=
  (upTo_eq_some_iff hm).mpr ⟨0, rfl, by simp, Nat.zero_le _⟩

theorem turns_eq {n : Nat} (hstep : 0 < step) (hbelow : ∀ i < n, i * step < bound)
    (hend : bound ≤ n * step) : turns bound step = n := by
  unfold turns
  refine Nat.div_eq_of_lt_le ?_ ?_
  · cases n with
    | zero => omega
    | succ n =>
      have hlast := hbelow n (by omega)
      rw [Nat.succ_mul]
      omega
  · rw [Nat.succ_mul]
    omega

theorem lt_turns_iff {i : Nat} (hstep : 0 < step) : i < turns bound step ↔ i * step < bound := by
  unfold turns
  rw [Nat.lt_iff_add_one_le, Nat.le_div_iff_mul_le hstep, Nat.succ_mul]
  omega

theorem le_turns_mul (hstep : 0 < step) : bound ≤ turns bound step * step := by
  have hend : ¬ turns bound step * step < bound := (lt_turns_iff hstep).not.mp (Nat.lt_irrefl _)
  omega

theorem turns_mul_lt (hstep : 0 < step) : turns bound step * step < bound + step := by
  have hfloor := Nat.div_mul_le_self (bound + step - 1) step
  unfold turns
  omega

@[simp] theorem turns_zero (step : Nat) : turns 0 step = 0 := by
  unfold turns
  rcases Nat.eq_zero_or_pos step with rfl | hstep
  · rfl
  · exact Nat.div_eq_of_lt (by omega)

theorem turns_mono {b c : Nat} (h : b ≤ c) : turns b step ≤ turns c step :=
  Nat.div_le_div_right (by omega)

/-- One turn for every whole step, and one for what is left. -/
theorem turns_eq_div_add (hstep : 0 < step) (bound : Nat) :
    turns bound step = bound / step + min 1 (bound % step) := by
  have hsum := Nat.div_add_mod' bound step
  have hmod := Nat.mod_lt bound hstep
  have hfloor : ∀ i < bound / step, i * step + step ≤ bound / step * step := by
    intro i hi
    rw [← Nat.succ_mul]
    exact Nat.mul_le_mul_right step hi
  rcases Nat.eq_zero_or_pos (bound % step) with hzero | hpos
  · rw [hzero, Nat.min_zero, Nat.add_zero]
    refine turns_eq hstep (fun i hi => ?_) (by omega)
    have hlast := hfloor i hi
    omega
  · rw [Nat.min_eq_left hpos]
    refine turns_eq hstep (fun i hi => ?_) ?_
    · rcases Nat.lt_succ_iff_lt_or_eq.mp hi with hlt | rfl
      · have hlast := hfloor i hlt
        omega
      · omega
    · rw [Nat.succ_mul]
      omega

/-- The loop ends at a multiple of the step that is not below the bound, if not before. -/
theorem turns_mul_le {c : Nat} (h : bound ≤ c) (hdvd : step ∣ c) : turns bound step * step ≤ c := by
  rcases Nat.eq_zero_or_pos step with rfl | hstep
  · rw [Nat.mul_zero]
    exact Nat.zero_le c
  obtain ⟨q, rfl⟩ := hdvd
  rw [Nat.mul_comm step q]
  refine Nat.mul_le_mul_right step (Nat.le_of_not_lt fun hlt => ?_)
  have hbelow := (lt_turns_iff hstep).mp hlt
  rw [Nat.mul_comm q step] at hbelow
  omega

/-- A counter that does not start over visits the multiples of the step. -/
theorem upTo_of_lt (hstep : 0 < step) (h : turns bound step * step < m) :
    upTo m bound step = some ((List.range (turns bound step)).map (· * step)) := by
  have hmod : ∀ i ≤ turns bound step, i * step % m = i * step := fun i hi =>
    Nat.mod_eq_of_lt (Nat.lt_of_le_of_lt (Nat.mul_le_mul_right step hi) h)
  refine (upTo_eq_some_iff (by omega)).mpr ⟨turns bound step, ?_, ?_, ?_⟩
  · refine List.map_congr_left fun i hi => (hmod i ?_).symm
    exact Nat.le_of_lt (List.mem_range.mp hi)
  · intro i hi
    rw [hmod i (Nat.le_of_lt hi)]
    exact (lt_turns_iff hstep).mp hi
  · rw [hmod _ (Nat.le_refl _)]
    exact le_turns_mul hstep

/-- With a step that divides the number of values, a counter that starts over comes back to zero. -/
theorem eq_of_upTo_of_dvd (hstep : 0 < step) (hm : 0 < m) (hdvd : step ∣ m) {l : List Nat}
    (h : upTo m bound step = some l) : turns bound step * step < m ∧
      l = (List.range (turns bound step)).map (· * step) := by
  obtain ⟨n, rfl, hbelow, hend⟩ := (upTo_eq_some_iff hm).mp h
  obtain ⟨q, rfl⟩ := hdvd
  have hn : n < q := by
    refine Nat.lt_of_not_le fun hle => ?_
    have hback : (n - q) * step % (step * q) = n * step % (step * q) := by
      rw [← Nat.add_mod_right ((n - q) * step), Nat.mul_comm step q, ← Nat.add_mul,
        Nat.sub_add_cancel hle]
    have hq : 0 < q := Nat.pos_of_mul_pos_left hm
    have hbefore := hbelow (n - q) (by omega)
    omega
  have hmod : ∀ i ≤ n, i * step % (step * q) = i * step := by
    intro i hi
    rw [Nat.mul_comm step q]
    exact Nat.mod_eq_of_lt (Nat.mul_lt_mul_of_pos_right (by omega) hstep)
  have hturns : turns bound step = n := by
    refine turns_eq hstep (fun i hi => ?_) ?_
    · rw [← hmod i (Nat.le_of_lt hi)]
      exact hbelow i hi
    · rwa [← hmod n (Nat.le_refl n)]
  rw [hturns]
  refine ⟨?_, List.map_congr_left fun i hi => hmod i (Nat.le_of_lt (List.mem_range.mp hi))⟩
  rw [Nat.mul_comm step q]
  exact Nat.mul_lt_mul_of_pos_right hn hstep

end Counters
