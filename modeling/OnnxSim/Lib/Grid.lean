import Mathlib.Order.Basic

/-!
# Places in row-major order

The places of pictures of `H` rows and `W` columns that are kept one after the other. Where the places of
some rows and columns of each picture are all places, these are all the rows and columns, both for rows
without a gap (`Grid.Fills.whole_of_rows`) and where the second row and the second column are not among
them (`Grid.Fills.whole_of_not_one`).
-/

namespace Grid

variable {H W N N' n h w n' h' w' : Nat}

/-- The place of row `h` and column `w` of picture `n`. -/
def place (H W n h w : Nat) : Nat := (n * H + h) * W + w

theorem place_lt (hn : n < N) (hh : h < H) (hw : w < W) : place H W n h w < N * H * W := by
  have hrows : (n + 1) * H ≤ N * H := Nat.mul_le_mul_right H hn
  have hcols : (n * H + h + 1) * W ≤ N * H * W := by
    refine Nat.mul_le_mul_right W ?_
    rw [Nat.succ_mul] at hrows
    omega
  rw [Nat.succ_mul] at hcols
  unfold place
  omega

theorem place_inj (hh : h < H) (hh' : h' < H) (hw : w < W) (hw' : w' < W)
    (heq : place H W n h w = place H W n' h' w') : n = n' ∧ h = h' ∧ w = w' := by
  have hsplit : ∀ {d q q' r r' : Nat}, r < d → r' < d → q * d + r = q' * d + r' → q = q' ∧ r = r' := by
    intro d q q' r r' hr hr' heq
    have hdiv := congrArg (· / d) heq
    simp only [Nat.mul_comm _ d, Nat.mul_add_div (Nat.lt_of_le_of_lt (Nat.zero_le _) hr),
      Nat.div_eq_of_lt hr, Nat.div_eq_of_lt hr', Nat.add_zero] at hdiv
    subst hdiv
    exact ⟨rfl, by omega⟩
  obtain ⟨hrow, hcol⟩ := hsplit hw hw' heq
  obtain ⟨hn, hrow⟩ := hsplit hh hh' hrow
  exact ⟨hn, hrow, hcol⟩

theorem exists_place {x : Nat} (hx : x < N * H * W) :
    ∃ n < N, ∃ h < H, ∃ w < W, place H W n h w = x := by
  have hW : 0 < W := Nat.pos_of_ne_zero fun hzero => by simp [hzero] at hx
  have hH : 0 < H := Nat.pos_of_ne_zero fun hzero => by simp [hzero] at hx
  have hrow : x / W < N * H := (Nat.div_lt_iff_lt_mul hW).mpr hx
  refine ⟨x / W / H, (Nat.div_lt_iff_lt_mul hH).mpr hrow, x / W % H, Nat.mod_lt _ hH, x % W,
    Nat.mod_lt _ hW, ?_⟩
  unfold place
  rw [Nat.div_add_mod', Nat.div_add_mod']

/-- The places of rows `R` and columns `K` of `N'` pictures are those of `N` whole ones. -/
structure Fills (N N' H W : Nat) (R K : Nat → Prop) : Prop where
  inside : ∀ n < N', ∀ h, R h → ∀ w, K w → place H W n h w < N * H * W
  all : ∀ x < N * H * W, ∃ n < N', ∃ h, R h ∧ ∃ w, K w ∧ place H W n h w = x

/-- The rows and columns are all there are. -/
structure Whole (N N' H W : Nat) (R K : Nat → Prop) : Prop where
  pictures : N' = N
  rows : ∀ h, R h ↔ h < H
  columns : ∀ w, K w ↔ w < W

namespace Fills

variable {R K : Nat → Prop}

theorem exists_mem (hfills : Fills N N' H W R K) (hN : 0 < N) (hH : 0 < H) (hW : 0 < W) :
    0 < N' ∧ R 0 ∧ K 0 := by
  obtain ⟨n, hn, h, hR, w, hK, hzero⟩ := hfills.all 0 (Nat.mul_pos (Nat.mul_pos hN hH) hW)
  unfold place at hzero
  obtain ⟨hrow, rfl⟩ := Nat.add_eq_zero_iff.mp hzero
  obtain hrow | rfl := Nat.mul_eq_zero.mp hrow
  · obtain ⟨-, rfl⟩ := Nat.add_eq_zero_iff.mp hrow
    exact ⟨by omega, hR, hK⟩
  · cases hW

/-- Rows without a gap, at least as many as a picture has. -/
theorem whole_of_rows (hfills : Fills N N' H W R K) (hN : 0 < N) (hH : 0 < H) (hW : 0 < W)
    (hle : N ≤ N') {Q : Nat} (hQ : H ≤ Q) (hR : ∀ h, R h ↔ h < Q) : Whole N N' H W R K := by
  obtain ⟨-, -, hK⟩ := hfills.exists_mem hN hH hW
  have hlast : (N' - 1) * H + H = N' * H := by
    rw [← Nat.succ_mul, Nat.succ_eq_add_one, Nat.sub_add_cancel (by omega)]
  have hmul : N * H ≤ N' * H := Nat.mul_le_mul_right H hle
  have hrow : (N' - 1) * H + (Q - 1) < N * H := by
    refine Nat.lt_of_mul_lt_mul_right (a := W) ?_
    have hin := hfills.inside (N' - 1) (by omega) (Q - 1) ((hR _).mpr (by omega)) 0 hK
    rwa [place, Nat.add_zero] at hin
  have hQH : Q = H := by omega
  subst hQH
  have hNN : N' = N := by
    refine Nat.le_antisymm ?_ hle
    exact Nat.le_of_mul_le_mul_right (by omega) hH
  refine ⟨hNN, hR, fun w => ⟨fun hw => ?_, fun hw => ?_⟩⟩
  · have hin := hfills.inside (N' - 1) (by omega) (Q - 1) ((hR _).mpr (by omega)) w hw
    have hprev : (N' - 1) * Q + (Q - 1) + 1 = N * Q := by
      rw [← hNN]
      omega
    rw [place, ← hprev, Nat.succ_mul] at hin
    omega
  · obtain ⟨n, -, h, -, k, hk, heq⟩ := hfills.all w
      (Nat.lt_of_lt_of_le hw (Nat.le_mul_of_pos_left W (Nat.mul_pos hN hH)))
    unfold place at heq
    rcases Nat.eq_zero_or_pos (n * Q + h) with hzero | hpos
    · rw [hzero, Nat.zero_mul, Nat.zero_add] at heq
      exact heq ▸ hk
    · have hmul := Nat.le_mul_of_pos_left W hpos
      omega

/-- Neither the second row nor the second column is among them. -/
theorem whole_of_not_one (hfills : Fills N N' H W R K) (hN : 0 < N) (hH : 0 < H) (hW : 0 < W)
    (hle : N ≤ N') (hR : ¬ R 1) (hK : ¬ K 1) : Whole N N' H W R K := by
  have hone : ∀ {n h w}, R h → K w → place H W n h w = 1 → H = 1 ∧ W = 1 := by
    intro n h w hh hw heq
    unfold place at heq
    rcases Nat.eq_zero_or_pos (n * H + h) with hzero | hpos
    · rw [hzero, Nat.zero_mul, Nat.zero_add] at heq
      exact absurd (heq ▸ hw) hK
    · have hrow := Nat.le_mul_of_pos_left W hpos
      have hW1 : W = 1 := by omega
      subst hW1
      rw [Nat.mul_one] at heq
      rcases Nat.eq_zero_or_pos n with rfl | hn
      · rw [Nat.zero_mul, Nat.zero_add] at heq
        have hh1 : h = 1 := by
          rw [Nat.zero_mul, Nat.zero_add] at hpos
          omega
        exact absurd (hh1 ▸ hh) hR
      · have hrows := Nat.le_mul_of_pos_left H hn
        exact ⟨by omega, rfl⟩
  obtain ⟨rfl, rfl⟩ : H = 1 ∧ W = 1 := by
    by_contra hne
    have hlt : 1 < N * H * W := by
      have hrows := Nat.le_mul_of_pos_left H hN
      have hcols := Nat.le_mul_of_pos_left W (Nat.mul_pos hN hH)
      have hcols' := Nat.le_mul_of_pos_right (N * H) hW
      omega
    obtain ⟨n, -, h, hh, w, hw, heq⟩ := hfills.all 1 hlt
    exact hne (hone hh hw heq)
  obtain ⟨hN', hR0, hK0⟩ := hfills.exists_mem hN hH hW
  have hin : ∀ h, R h → ∀ w, K w → N' - 1 + h + w < N := by
    intro h hh w hw
    have hlt := hfills.inside (N' - 1) (by omega) h hh w hw
    simpa [place] using hlt
  refine ⟨?_, fun h => ⟨fun hh => ?_, fun hh => ?_⟩, fun w => ⟨fun hw => ?_, fun hw => ?_⟩⟩
  · have := hin 0 hR0 0 hK0
    omega
  · have := hin h hh 0 hK0
    omega
  · obtain rfl := Nat.lt_one_iff.mp hh
    exact hR0
  · have := hin 0 hR0 w hw
    omega
  · obtain rfl := Nat.lt_one_iff.mp hw
    exact hK0

end Fills

end Grid
