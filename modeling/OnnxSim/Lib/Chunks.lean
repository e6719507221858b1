import Mathlib.Order.Basic

/-!
# Sampling a row in steps of a chunk

A row of `len` numbers from `s` on is sampled at its first number and every `e` numbers after it, and the
numbers fall into chunks of `e` that need not start where the row does. Only the chunk of the last number
can be missed (`sampled_or_last`). So a block of rows has its chunks sampled exactly if each row's last
chunk is (`block_iff`), and rows that follow one another without a gap miss at most the last chunk of all
(`rows_iff`).
-/

namespace Chunks

variable {e s len j : Nat}

theorem le_add_one (he : 0 < e) : (s + j) / e ≤ (s + j / e * e) / e + 1 := by
  have hmod := Nat.div_add_mod' j e
  have hlt := Nat.mod_lt j he
  rw [← Nat.add_div_right _ he]
  exact Nat.div_le_div_right (by omega)

theorem sample_le : (s + j / e * e) / e ≤ (s + j) / e :=
  Nat.div_le_div_right (Nat.add_le_add_left (Nat.div_mul_le_self j e) s)

/-- A number of the row is in a chunk that is sampled, or in that of the last number. -/
theorem sampled_or_last (he : 0 < e) (hj : j < len) :
    (∃ k < len, e ∣ k ∧ (s + j) / e = (s + k) / e) ∨ (s + j) / e = (s + (len - 1)) / e := by
  have hfloor := Nat.div_mul_le_self j e
  by_cases hown : (s + j) / e = (s + j / e * e) / e
  · exact .inl ⟨j / e * e, by omega, Nat.dvd_mul_left _ _, hown⟩
  have hle := le_add_one (s := s) (j := j) he
  have hge := sample_le (e := e) (s := s) (j := j)
  have hnext : (s + (j / e * e + e)) / e = (s + j / e * e) / e + 1 := by
    rw [← Nat.add_assoc, Nat.add_div_right _ he]
  by_cases hin : j / e * e + e < len
  · exact .inl ⟨j / e * e + e, hin, Nat.dvd_add (Nat.dvd_mul_left _ _) (Nat.dvd_refl e), by omega⟩
  · have hlast : (s + (len - 1)) / e ≤ (s + (j / e * e + e)) / e :=
      Nat.div_le_div_right (by omega)
    have hmono : (s + j) / e ≤ (s + (len - 1)) / e := Nat.div_le_div_right (by omega)
    exact .inr (by omega)

/-- The last number is in the chunk of the last sample, or in that of the number after it. -/
theorem last_or_next (he : 0 < e) (hlen : 0 < len) :
    (s + (len - 1)) / e = (s + (len - 1) / e * e) / e ∨ (s + (len - 1)) / e = (s + len) / e := by
  by_cases hown : (s + (len - 1)) / e = (s + (len - 1) / e * e) / e
  · exact .inl hown
  have hle := le_add_one (s := s) (j := len - 1) he
  have hge := sample_le (e := e) (s := s) (j := len - 1)
  have hmod := Nat.div_add_mod' (len - 1) e
  have hlt := Nat.mod_lt (len - 1) he
  have hnext : (s + ((len - 1) / e * e + e)) / e = (s + (len - 1) / e * e) / e + 1 := by
    rw [← Nat.add_assoc, Nat.add_div_right _ he]
  have hup : (s + len) / e ≤ (s + ((len - 1) / e * e + e)) / e := Nat.div_le_div_right (by omega)
  have hmono : (s + (len - 1)) / e ≤ (s + len) / e := Nat.div_le_div_right (by omega)
  exact .inr (by omega)

theorem le_last_sample {k : Nat} (hk : k < len) (hdvd : e ∣ k) : k ≤ (len - 1) / e * e := by
  obtain ⟨q, rfl⟩ := hdvd
  rcases Nat.eq_zero_or_pos e with rfl | he
  · simp
  rw [Nat.mul_comm e q]
  refine Nat.mul_le_mul_right e ((Nat.le_div_iff_mul_le he).mpr ?_)
  rw [Nat.mul_comm q e]
  omega

/-! ## A block of rows -/

/-- The chunk of the last number of row `r` is that of its last sample, or of the first of the next row
of the block. The rows are `stride` numbers apart, and the block has `len` of each from `c` on. -/
def RowEnds (e stride c len rows r : Nat) : Prop :=
  (r * stride + c + (len - 1)) / e = (r * stride + c + (len - 1) / e * e) / e ∨
    r + 1 < rows ∧ (r * stride + c + (len - 1)) / e = ((r + 1) * stride + c) / e

instance (e stride c len rows r : Nat) : Decidable (RowEnds e stride c len rows r) :=
  inferInstanceAs (Decidable (_ ∨ _))

/-- Every chunk of a block of rows is sampled exactly if the last of each row is. -/
theorem block_iff {stride c first rows : Nat} (he : 0 < e) (hlen : 0 < len)
    (hstride : c + len ≤ stride) :
    (∀ r, first ≤ r → r < rows → ∀ j < len, ∃ r', (first ≤ r' ∧ r' < rows) ∧ ∃ k < len, e ∣ k ∧
      (r * stride + c + j) / e = (r' * stride + c + k) / e) ↔
      ∀ r, first ≤ r → r < rows → RowEnds e stride c len rows r := by
  constructor
  · intro hall r hfirst hr
    obtain ⟨r', ⟨-, hr'⟩, k, hk, hdvd, heq⟩ := hall r hfirst hr (len - 1) (by omega)
    have hlast := le_last_sample hk hdvd
    have hsample := sample_le (e := e) (s := r * stride + c) (j := len - 1)
    rcases Nat.lt_or_ge r r' with hlt | hle
    · -- the sample is in a later row
      have hmul : (r + 1) * stride ≤ r' * stride := Nat.mul_le_mul_right stride hlt
      have hnext : ((r + 1) * stride + c) / e ≤ (r' * stride + c + k) / e :=
        Nat.div_le_div_right (by omega)
      have hmono : (r * stride + c + (len - 1)) / e ≤ ((r + 1) * stride + c) / e := by
        refine Nat.div_le_div_right ?_
        rw [Nat.succ_mul]
        omega
      exact .inr ⟨by omega, by omega⟩
    · -- the sample is not after the last one of the row
      have hmono : (r' * stride + c + k) / e ≤ (r * stride + c + (len - 1) / e * e) / e := by
        refine Nat.div_le_div_right ?_
        rcases Nat.lt_or_eq_of_le hle with hlt | rfl
        · have hmul : (r' + 1) * stride ≤ r * stride := Nat.mul_le_mul_right stride hlt
          rw [Nat.succ_mul] at hmul
          omega
        · omega
      exact .inl (by omega)
  · intro hall r hfirst hr j hj
    rcases sampled_or_last (s := r * stride + c) he hj with ⟨k, hk, hdvd, heq⟩ | hlast
    · exact ⟨r, ⟨hfirst, hr⟩, k, hk, hdvd, heq⟩
    · rcases hall r hfirst hr with hown | ⟨hnext, hend⟩
      · have hfloor := Nat.div_mul_le_self (len - 1) e
        exact ⟨r, ⟨hfirst, hr⟩, _, by omega, Nat.dvd_mul_left _ _, hlast.trans hown⟩
      · exact ⟨r + 1, ⟨by omega, hnext⟩, 0, hlen, Nat.dvd_zero e, hlast.trans hend⟩

/-! ## Rows without a gap -/

/-- The chunk of the last number of all is that of the last sample. The rows are sampled from the start
of each block of `d` numbers on. -/
def LastEnds (e d rows cols : Nat) : Prop :=
  ((rows - 1) * cols + (cols - 1)) / e =
    ((rows - 1) * cols + ((cols - 1) / d * d + (cols - 1) % d / e * e)) / e

instance (e d rows cols : Nat) : Decidable (LastEnds e d rows cols) :=
  inferInstanceAs (Decidable (_ = _))

theorem le_last_place {d cols m : Nat} (hd : 0 < d) (hm : m < cols) (hdvd : e ∣ m % d) :
    m ≤ (cols - 1) / d * d + (cols - 1) % d / e * e := by
  have hplace := Nat.div_add_mod' m d
  have hmod := Nat.mod_lt m hd
  have hlast := Nat.div_add_mod' (cols - 1) d
  have hdiv : m / d ≤ (cols - 1) / d := Nat.div_le_div_right (by omega)
  rcases Nat.lt_or_eq_of_le hdiv with hlt | heq
  · have hmul : (m / d + 1) * d ≤ (cols - 1) / d * d := Nat.mul_le_mul_right d hlt
    rw [Nat.succ_mul] at hmul
    omega
  · have hin : m % d ≤ (cols - 1) % d / e * e := by
      rw [heq] at hplace
      have hlt : m % d < (cols - 1) % d + 1 := by omega
      exact le_last_sample hlt hdvd
    rw [heq] at hplace
    omega

theorem rows_iff {d rows cols : Nat} (he : 0 < e) (hd : 0 < d) (hrows : 0 < rows)
    (hcols : 0 < cols) :
    (∀ n < rows, ∀ m < cols, ∃ n' < rows, ∃ m' < cols, e ∣ m' % d ∧
      (n * cols + m) / e = (n' * cols + m') / e) ↔ LastEnds e d rows cols := by
  constructor
  · intro hall
    obtain ⟨n, hn, m, hm, hdvd, heq⟩ := hall (rows - 1) (by omega) (cols - 1) (by omega)
    have hplace := le_last_place hd hm hdvd
    have hmono : (n * cols + m) / e ≤
        ((rows - 1) * cols + ((cols - 1) / d * d + (cols - 1) % d / e * e)) / e := by
      refine Nat.div_le_div_right ?_
      have hmul : n * cols ≤ (rows - 1) * cols := Nat.mul_le_mul_right cols (by omega)
      omega
    have hlast : ((rows - 1) * cols + ((cols - 1) / d * d + (cols - 1) % d / e * e)) / e ≤
        ((rows - 1) * cols + (cols - 1)) / e := by
      refine Nat.div_le_div_right (Nat.add_le_add_left ?_ _)
      have hsum := Nat.div_add_mod' (cols - 1) d
      have hfloor := Nat.div_mul_le_self ((cols - 1) % d) e
      omega
    unfold LastEnds
    omega
  · intro hend n hn m hm
    have hplace := Nat.div_add_mod' m d
    have hmod := Nat.mod_lt m hd
    -- the block of `d` numbers that has the element, clipped at the end of the row
    obtain ⟨b, hb⟩ : ∃ b, b = m / d * d := ⟨_, rfl⟩
    obtain ⟨len, hlen⟩ : ∃ len, len = min d (cols - b) := ⟨_, rfl⟩
    have hstart : ∀ k < d, (b + k) % d = k := by
      intro k hk
      rw [hb, Nat.mul_add_mod', Nat.mod_eq_of_lt hk]
    have hindex : n * cols + m = n * cols + b + m % d := by omega
    rw [hindex]
    have hj : m % d < len := by omega
    have hpos : 0 < len := by omega
    rcases sampled_or_last (s := n * cols + b) he hj with ⟨k, hk, hdvd, heq⟩ | hlast
    · refine ⟨n, hn, b + k, by omega, ?_, ?_⟩
      · rwa [hstart k (by omega)]
      · rwa [← Nat.add_assoc]
    have hfloor := Nat.div_mul_le_self (len - 1) e
    rcases last_or_next (s := n * cols + b) he hpos with hown | hnext
    · refine ⟨n, hn, b + (len - 1) / e * e, by omega, ?_, ?_⟩
      · rw [hstart _ (by omega)]
        exact Nat.dvd_mul_left _ _
      · rw [← Nat.add_assoc]
        exact hlast.trans hown
    by_cases hrow : b + d < cols
    · -- the next block of the row starts with a sample
      refine ⟨n, hn, b + d, hrow, ?_, ?_⟩
      · rw [hb, Nat.mul_add_mod', Nat.mod_self]
        exact Nat.dvd_zero e
      · rw [← Nat.add_assoc, hlast, hnext, show len = d by omega]
    by_cases hlater : n + 1 < rows
    · -- so does the next row
      refine ⟨n + 1, hlater, 0, hcols, by rw [Nat.zero_mod]; exact Nat.dvd_zero e, ?_⟩
      rw [hlast, hnext, Nat.succ_mul]
      congr 1
      omega
    · have hdiv : (cols - 1) / d = m / d := by
        refine Nat.div_eq_of_lt_le ?_ ?_
        · omega
        · rw [Nat.succ_mul]
          omega
      have hmodlast : (cols - 1) % d = len - 1 := by
        have hsum := Nat.div_add_mod' (cols - 1) d
        rw [hdiv] at hsum
        omega
      have hn' : n = rows - 1 := by omega
      refine ⟨n, hn, b + (len - 1) / e * e, by omega, ?_, ?_⟩
      · rw [hstart _ (by omega)]
        exact Nat.dvd_mul_left _ _
      · unfold LastEnds at hend
        rw [hdiv, ← hb, hmodlast, ← hn'] at hend
        rw [hlast, ← hend]
        congr 1
        omega

/-! ## Runs -/

/-- The chunks of a run of numbers are those from its first number's to its last number's. -/
theorem exists_in_run_iff {c : Nat} (he : 0 < e) (hlen : 0 < len) :
    (∃ j < len, (s + j) / e = c) ↔ s / e ≤ c ∧ c ≤ (s + (len - 1)) / e := by
  constructor
  · rintro ⟨j, hj, rfl⟩
    exact ⟨Nat.div_le_div_right (by omega), Nat.div_le_div_right (by omega)⟩
  · rintro ⟨hfirst, hlast⟩
    rcases Nat.lt_or_eq_of_le hfirst with hlt | rfl
    · -- the chunk starts inside the run
      have hstart : s < c * e := (Nat.div_lt_iff_lt_mul he).mp hlt
      have hend : c * e ≤ s + (len - 1) := (Nat.le_div_iff_mul_le he).mp hlast
      refine ⟨c * e - s, by omega, ?_⟩
      rw [Nat.add_sub_cancel' (Nat.le_of_lt hstart), Nat.mul_div_cancel c he]
    · exact ⟨0, hlen, rfl⟩

/-- Two runs of one length have the same chunks exactly if they start in one chunk and end in one. -/
theorem runs_iff {t : Nat} (he : 0 < e) (hlen : 0 < len) :
    (∀ c, (∃ j < len, (s + j) / e = c) ↔ ∃ j < len, (t + j) / e = c) ↔
      s / e = t / e ∧ (s + (len - 1)) / e = (t + (len - 1)) / e := by
  simp only [exists_in_run_iff he hlen]
  have hs : s / e ≤ (s + (len - 1)) / e := Nat.div_le_div_right (Nat.le_add_right _ _)
  have ht : t / e ≤ (t + (len - 1)) / e := Nat.div_le_div_right (Nat.le_add_right _ _)
  constructor
  · intro hall
    have hfirst := (hall (s / e)).mp ⟨Nat.le_refl _, hs⟩
    have hfirst' := (hall (t / e)).mpr ⟨Nat.le_refl _, ht⟩
    have hlast := (hall ((s + (len - 1)) / e)).mp ⟨hs, Nat.le_refl _⟩
    have hlast' := (hall ((t + (len - 1)) / e)).mpr ⟨ht, Nat.le_refl _⟩
    exact ⟨by omega, by omega⟩
  · rintro ⟨hfirst, hlast⟩ c
    rw [hfirst, hlast]

end Chunks
