import Mathlib.Algebra.Ring.Int.Defs
import Mathlib.Algebra.Ring.Nat
import Mathlib.Data.List.Basic
import Mathlib.Data.List.TakeWhile

/-!
# Reading text

A string stream holds text that is put at its end and read from its front, a line at a time, up to a
delimiter or to the end of the text. Its flags say whether the end was met and whether a reading
failed; a stream with a flag set neither takes nor gives text. The lines that a loop of readings finds
are those that the text is made of, whether or not the last of them has a delimiter behind it.

A number is read from the front of its text, up to the first character that is no digit.
-/

/-- The text not yet read, and the flags. -/
structure Stringstream where
  rest : List Char := []
  eofbit : Bool := false
  failbit : Bool := false

namespace Stringstream

universe u

variable {σ : Type u}

def good (ss : Stringstream) : Bool := !ss.eofbit && !ss.failbit

/-- `operator<<`. -/
def put (ss : Stringstream) (text : List Char) : Stringstream :=
  if ss.good then { ss with rest := ss.rest ++ text } else { ss with failbit := true }

def clear (ss : Stringstream) : Stringstream := { ss with eofbit := false, failbit := false }

/-- `getline`: the line and what is left. A stream that is not good gives no line. -/
def getline (ss : Stringstream) (d : Char) : List Char × Stringstream :=
  if ss.good then
    let line := ss.rest.takeWhile (· != d)
    match ss.rest.dropWhile (· != d) with
    | [] => (line, { rest := [], eofbit := true, failbit := line.isEmpty })
    | _ :: rest => (line, { ss with rest := rest })
  else ([], { ss with failbit := true })

/-- Each line that is read takes text away. -/
theorem getline_length_lt {ss : Stringstream} {d : Char} (h : (ss.getline d).2.failbit = false) :
    (ss.getline d).2.rest.length < ss.rest.length := by
  unfold getline at h ⊢
  split at h <;> rename_i hgood
  · have hsplit := congrArg List.length (List.takeWhile_append_dropWhile (p := (· != d)) (l := ss.rest))
    rw [List.length_append] at hsplit
    cases hdrop : ss.rest.dropWhile (· != d) with
    | nil =>
      have hne : ss.rest.takeWhile (· != d) ≠ [] := by simpa [hdrop] using h
      simp only [hgood, hdrop, if_true, List.length_nil] at hsplit ⊢
      have := List.length_pos_iff.mpr hne
      omega
    | cons c rest =>
      simp only [hgood, hdrop, if_true, List.length_cons] at hsplit ⊢
      omega
  · cases h

/-- `while (getline(ss, line, d))`, with a body that may fail. -/
def whileGetline (body : σ → List Char → Option σ) (d : Char) (ss : Stringstream) (s : σ) :
    Option (Stringstream × σ) :=
  if _ : (ss.getline d).2.failbit = false then
    (body s (ss.getline d).1).bind fun s => whileGetline body d (ss.getline d).2 s
  else some ((ss.getline d).2, s)
termination_by ss.rest.length
decreasing_by exact getline_length_lt ‹_›

/-! ## The lines of a text -/

/-- `text` is made of `lines`, with a `d` after each of them but perhaps the last. -/
inductive Lines (d : Char) : List Char → List (List Char) → Prop
  | nil : Lines d [] []
  | last {line : List Char} : line ≠ [] → d ∉ line → Lines d line [line]
  | cons {line text : List Char} {lines : List (List Char)} : d ∉ line → Lines d text lines →
      Lines d (line ++ d :: text) (line :: lines)

/-- The lines that a stream still gives. -/
inductive Pending (d : Char) : Stringstream → List (List Char) → Prop
  | live {text : List Char} {lines : List (List Char)} : Lines d text lines →
      Pending d { rest := text } lines
  | spent : Pending d { eofbit := true } []

/-- The stream after a reading that failed at the end of the text. -/
def ended : Stringstream := { eofbit := true, failbit := true }

variable {d : Char} {line text : List Char} {lines : List (List Char)} {ss : Stringstream}

theorem takeWhile_line (hd : d ∉ line) : line.takeWhile (· != d) = line :=
  List.takeWhile_eq_self_iff.mpr fun c hc => by
    simpa using fun h : c = d => hd (h ▸ hc)

theorem dropWhile_line (hd : d ∉ line) : line.dropWhile (· != d) = [] :=
  List.dropWhile_eq_nil_iff.mpr fun c hc => by
    simpa using fun h : c = d => hd (h ▸ hc)

theorem getline_delimited (hd : d ∉ line) :
    getline { rest := line ++ d :: text } d = (line, { rest := text }) := by
  simp [getline, good, List.takeWhile_append, List.dropWhile_append, takeWhile_line hd,
    dropWhile_line hd]

theorem getline_last (hne : line ≠ []) (hd : d ∉ line) :
    getline { rest := line } d = (line, { eofbit := true }) := by
  simp [getline, good, takeWhile_line hd, dropWhile_line hd, hne]

theorem getline_nil : getline {} d = ([], ended) := rfl

theorem getline_spent : getline { eofbit := true } d = ([], ended) := rfl

theorem Pending.getline (h : Pending d ss (line :: lines)) :
    ∃ ss', ss.getline d = (line, ss') ∧ Pending d ss' lines := by
  cases h with
  | live h =>
    cases h with
    | last hne hd => exact ⟨_, getline_last hne hd, .spent⟩
    | cons hd h => exact ⟨_, getline_delimited hd, .live h⟩

/-- A loop of readings takes the pending lines one by one and leaves the stream at its end. -/
theorem Pending.whileGetline (body : σ → List Char → Option σ) (h : Pending d ss lines) (s : σ) :
    ss.whileGetline body d s = (lines.foldlM body s).map fun s => (ended, s) := by
  induction lines generalizing ss s with
  | nil =>
    have hget : ss.getline d = ([], ended) := by
      cases h with
      | live h =>
        cases h
        exact getline_nil
      | spent => exact getline_spent
    rw [Stringstream.whileGetline, hget]
    rfl
  | cons line lines ih =>
    obtain ⟨ss', hget, h'⟩ := h.getline
    have hfail : ss'.failbit = false := by cases h' <;> rfl
    rw [Stringstream.whileGetline, hget, dif_pos hfail, List.foldlM_cons]
    cases body s line with
    | none => rfl
    | some s => exact ih h' s

/-- Lines with one delimiter between two of them. -/
theorem Lines.intercalate (hlines : ∀ line ∈ lines, line ≠ [] ∧ d ∉ line) :
    Lines d ([d].intercalate lines) lines := by
  induction lines with
  | nil => exact .nil
  | cons line lines ih =>
    obtain ⟨hne, hd⟩ := hlines line List.mem_cons_self
    have ih := ih fun line hline => hlines line (List.mem_cons_of_mem _ hline)
    cases lines with
    | nil => simpa using Lines.last hne hd
    | cons => simpa [List.intercalate] using Lines.cons hd ih

/-- Lines with a delimiter after each of them. -/
theorem Lines.terminated (hne : lines ≠ []) (hlines : ∀ line ∈ lines, d ∉ line) :
    Lines d ([d].intercalate lines ++ [d]) lines := by
  induction lines with
  | nil => exact absurd rfl hne
  | cons line lines ih =>
    have hd := hlines line List.mem_cons_self
    cases lines with
    | nil => simpa using Lines.cons hd .nil
    | cons =>
      have ih := ih (List.cons_ne_nil _ _) fun line hline => hlines line (List.mem_cons_of_mem _ hline)
      simpa [List.intercalate] using Lines.cons hd ih

end Stringstream

/-! ## Numbers -/

def isspace (c : Char) : Bool := c = ' ' || (9 ≤ c.toNat && c.toNat ≤ 13)

/-- The sign before a number, and the text behind it. -/
def sign : List Char → Int × List Char
  | '-' :: text => (-1, text)
  | '+' :: text => (1, text)
  | text => (1, text)

/-- `std::stoi`: no number, and one that does not fit, are `none`. -/
def stoi (text : List Char) : Option Int :=
  let signed := sign (text.dropWhile isspace)
  let digits := signed.2.takeWhile Char.isDigit
  let value := signed.1 * Nat.ofDigitChars 10 digits 0
  if digits = [] then none
  else if -2 ^ 31 ≤ value ∧ value < 2 ^ 31 then some value
  else none

/-- A decimal number that fits an `int`. -/
structure Numeral where
  digits : List Char
  digits_ne_nil : digits ≠ []
  isDigit : ∀ c ∈ digits, c.isDigit
  fits : Nat.ofDigitChars 10 digits 0 < 2 ^ 31

namespace Numeral

def value (n : Numeral) : Nat := Nat.ofDigitChars 10 n.digits 0

/-- A number in its shortest form. -/
def ofNat (n : Nat) (h : n < 2 ^ 31) : Numeral where
  digits := Nat.toDigits 10 n
  digits_ne_nil := List.ne_nil_of_length_pos Nat.length_toDigits_pos
  isDigit := fun _ hc => Nat.isDigit_of_mem_toDigits (by decide) (by decide) hc
  fits := by rwa [Nat.ofDigitChars_ten_toDigits]

@[simp] theorem value_ofNat {n : Nat} (h : n < 2 ^ 31) : (ofNat n h).value = n :=
  Nat.ofDigitChars_ten_toDigits

theorem notMem (n : Numeral) {c : Char} (hc : c.isDigit = false) : c ∉ n.digits := fun hmem => by
  rw [n.isDigit c hmem] at hc
  cases hc

theorem dropWhile_isspace {text : List Char} (htext : ∃ c ∈ text.head?, c.isDigit) :
    text.dropWhile isspace = text := by
  obtain ⟨c, hc, hdigit⟩ := htext
  obtain ⟨text, rfl⟩ := List.head?_eq_some_iff.mp hc
  have hcode : 48 ≤ c.toNat := (Char.isDigit_iff_toNat.mp hdigit).1
  have hspace : isspace c = false := by
    have hblank : c ≠ ' ' := by
      rintro rfl
      exact absurd hcode (by decide)
    simp [isspace, hblank]
    omega
  rw [List.dropWhile_cons_of_neg (by simp [hspace])]

theorem sign_of_isDigit {text : List Char} (htext : ∃ c ∈ text.head?, c.isDigit) :
    sign text = (1, text) := by
  obtain ⟨c, hc, hdigit⟩ := htext
  obtain ⟨text, rfl⟩ := List.head?_eq_some_iff.mp hc
  have hcode : 48 ≤ c.toNat := (Char.isDigit_iff_toNat.mp hdigit).1
  have hminus : c ≠ '-' := by
    rintro rfl
    exact absurd hcode (by decide)
  have hplus : c ≠ '+' := by
    rintro rfl
    exact absurd hcode (by decide)
  unfold sign
  split
  · exact absurd (List.cons.inj ‹_›).1 hminus
  · exact absurd (List.cons.inj ‹_›).1 hplus
  · rfl

/-- Text that starts with a number is read as that number. -/
theorem stoi_append (n : Numeral) (text : List Char) (htext : ∀ c ∈ text.head?, c.isDigit = false) :
    stoi (n.digits ++ text) = some (n.value : Int) := by
  have hhead : ∃ c ∈ (n.digits ++ text).head?, c.isDigit := by
    obtain ⟨c, digits, hdigits⟩ := List.exists_cons_of_ne_nil n.digits_ne_nil
    exact ⟨c, by simp [hdigits], n.isDigit c (hdigits ▸ List.mem_cons_self)⟩
  have htake : (n.digits ++ text).takeWhile Char.isDigit = n.digits := by
    have hstop : text.takeWhile Char.isDigit = [] := by
      cases text with
      | nil => rfl
      | cons c text => rw [List.takeWhile_cons_of_neg (by simp [htext c rfl])]
    rw [List.takeWhile_append, List.takeWhile_eq_self_iff.mpr n.isDigit, if_pos rfl, hstop,
      List.append_nil]
  have hfits := n.fits
  unfold stoi
  simp only [dropWhile_isspace hhead, sign_of_isDigit hhead, htake, n.digits_ne_nil, if_false,
    Int.one_mul]
  rw [if_pos (by omega)]
  rfl

end Numeral
