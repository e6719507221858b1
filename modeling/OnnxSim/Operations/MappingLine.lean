import Mathlib.Data.List.Nodup
import OnnxSim.Lib.Loops
import OnnxSim.Lib.Text
import OnnxSim.Operations.Mapping

/-!
# The lines of a mapping file

`Mapping::Mapping(std::string)` of `Mapping.cc`: a line is the total loop, the outer loop and the inner
levels, with `-` between them; each is a tag and entries such as `M32`, with a space between two words.
An entry of an inner level may have the suffix of its letter, `X` for `M` and `Y` for the others but
`N`, which makes it spatial. A failed assertion, a number that `stoi` does not read and a position that
is not in its string are `none`.

A line as it is written is a `MappingLine`, and its text is read back as what it says.
-/

namespace OnnxSim

open Stringstream

/-- `Mapping::LoopName`. -/
inductive LoopName
  | N | C | M | S | R | Q | P
  deriving Repr, DecidableEq

namespace LoopName

def letter : LoopName → Char
  | N => 'N'
  | C => 'C'
  | M => 'M'
  | S => 'S'
  | R => 'R'
  | Q => 'Q'
  | P => 'P'

/-- The cases of the `switch` on the first character of an entry; the others fail an assertion. -/
def ofLetter? (c : Char) : Option LoopName :=
  if c = 'N' then some N
  else if c = 'C' then some C
  else if c = 'M' then some M
  else if c = 'S' then some S
  else if c = 'R' then some R
  else if c = 'Q' then some Q
  else if c = 'P' then some P
  else none

/-- The character that makes an entry spatial. There is none for `N`. -/
def suffix? : LoopName → Option Char
  | N => none
  | M => some 'X'
  | _ => some 'Y'

theorem ofLetter?_letter (name : LoopName) : ofLetter? name.letter = some name := by
  cases name <;> rfl

end LoopName

namespace LoopCounts

/-- `get_loop`. -/
def getLoop (counts : LoopCounts) : LoopName → Nat
  | .N => counts.N
  | .C => counts.C
  | .M => counts.M
  | .S => counts.S
  | .R => counts.R
  | .Q => counts.Q
  | .P => counts.P

def setLoop (counts : LoopCounts) (name : LoopName) (count : Nat) : LoopCounts :=
  match name with
  | .N => { counts with N := count }
  | .C => { counts with C := count }
  | .M => { counts with M := count }
  | .S => { counts with S := count }
  | .R => { counts with R := count }
  | .Q => { counts with Q := count }
  | .P => { counts with P := count }

theorem getLoop_setLoop (counts : LoopCounts) (a b : LoopName) (count : Nat) :
    (counts.setLoop a count).getLoop b = if a = b then count else counts.getLoop b := by
  cases a <;> cases b <;> rfl

@[simp] theorem getLoop_default (name : LoopName) : getLoop {} name = 1 := by
  cases name <;> rfl

end LoopCounts

/-- A `Mapping` with the fields that only a line fills. -/
structure LineMapping extends Mapping where
  spatialM : Nat := 1
  spatialP : Nat := 1
  spatialQ : Nat := 1
  spatialC : Nat := 1
  spatialR : Nat := 1
  spatialS : Nat := 1
  tileOutLoopOrder : List LoopName := []
  deriving Repr, DecidableEq

namespace LineMapping

/-- The mapping before any entry is read. -/
def empty : LineMapping where
  totalLoop := {}
  tileInLoop := {}
  tileOutLoop := {}

/-- The `spatial_` field of a letter; `N` has none. -/
def spatial? (mapping : LineMapping) : LoopName → Option Nat
  | .N => none
  | .C => some mapping.spatialC
  | .M => some mapping.spatialM
  | .S => some mapping.spatialS
  | .R => some mapping.spatialR
  | .Q => some mapping.spatialQ
  | .P => some mapping.spatialP

def setSpatial (mapping : LineMapping) (name : LoopName) (count : Nat) : LineMapping :=
  match name with
  | .N => mapping
  | .C => { mapping with spatialC := count }
  | .M => { mapping with spatialM := count }
  | .S => { mapping with spatialS := count }
  | .R => { mapping with spatialR := count }
  | .Q => { mapping with spatialQ := count }
  | .P => { mapping with spatialP := count }

/-! ## The constructor -/

/-- `std::stoi(word.substr(1))`. -/
def count? (word : List Char) : Option Int :=
  if word = [] then none else stoi (word.drop 1)

/-- The `switch` on `word.at(0)`. -/
def loopName? (word : List Char) : Option LoopName := word.head?.bind LoopName.ofLetter?

/-- An entry of the total loop. -/
def totalWord (mapping : LineMapping) (word : List Char) : Option LineMapping := do
  let count ← count? word
  let name ← loopName? word
  some { mapping with totalLoop := mapping.totalLoop.setLoop name (asUnsigned count) }

/-- An entry of the outer loop. -/
def outerWord (mapping : LineMapping) (word : List Char) : Option LineMapping := do
  let count ← count? word
  let name ← loopName? word
  some { mapping with
    tileOutLoop := mapping.tileOutLoop.setLoop name (asUnsigned count)
    tileOutLoopOrder := mapping.tileOutLoopOrder ++ [name] }

/-- The position of the letter's suffix in an entry of an inner level, `std::string::npos` being
`none`. -/
def suffixPos (name : LoopName) (word : List Char) : Option Nat :=
  name.suffix?.bind fun c => word.idxOf? c

/-- `tile_in_loop` with the count of one more entry. -/
def tileIn (mapping : LineMapping) (name : LoopName) (count : Int) : LineMapping :=
  { mapping with
    tileInLoop := mapping.tileInLoop.setLoop name
      (mapping.tileInLoop.getLoop name * asUnsigned count % 2 ^ 32) }

/-- An entry of an inner level. -/
def innerWord (mapping : LineMapping) (word : List Char) : Option LineMapping := do
  let name ← loopName? word
  match suffixPos name word with
  | some pos =>
    let count ← stoi ((word.drop 1).take pos)
    some ((mapping.setSpatial name (asUnsigned count)).tileIn name count)
  | none =>
    let count ← count? word
    some (mapping.tileIn name count)

/-- `loop_parse` with the next part in it, behind the blank and the tag. -/
def nextPart (loopParse : Stringstream) (tile : List Char) : Stringstream :=
  (((loopParse.clear.put tile).getline ' ').2.getline ' ').2

/-- An inner level, read with the stream of the parts before it. -/
def innerPart (state : Stringstream × LineMapping) (inTile : List Char) :
    Option (Stringstream × LineMapping) :=
  (nextPart state.1 inTile).whileGetline innerWord ' ' state.2

/-- `Mapping::Mapping(std::string)`. -/
def ofLine (mappingLine : List Char) : Option LineMapping := do
  let totalTile := (put {} mappingLine).getline '-'
  -- the total loop has no blank before its tag
  let total ← ((put {} totalTile.1).getline ' ').2.whileGetline totalWord ' ' empty
  let outTile := totalTile.2.getline '-'
  let outer ← (nextPart total.1 outTile.1).whileGetline outerWord ' ' total.2
  let inner ← outTile.2.whileGetline innerPart '-' outer
  some inner.2.2

end LineMapping

/-! ## Lines as they are written -/

/-- `N1` or `M32`. -/
structure LineEntry where
  name : LoopName
  count : Numeral

/-- An entry of an inner level, such as `Q28Y`. -/
structure InnerEntry extends LineEntry where
  spatial : Bool
  name_ne_N : spatial = true → name ≠ .N

/-- A tag and the words behind it. -/
structure LinePart (ε : Type) where
  tag : List Char
  tag_ne_nil : tag ≠ []
  space_notMem : ' ' ∉ tag
  dash_notMem : '-' ∉ tag
  entries : List ε

/-- A line of a mapping file. -/
structure MappingLine where
  total : LinePart LineEntry
  outer : LinePart LineEntry
  inner : List (LinePart InnerEntry)
  total_nodup : (total.entries.map LineEntry.name).Nodup
  outer_nodup : (outer.entries.map LineEntry.name).Nodup

def LineEntry.text (entry : LineEntry) : List Char := entry.name.letter :: entry.count.digits

def InnerEntry.text (entry : InnerEntry) : List Char :=
  entry.toLineEntry.text ++ if entry.spatial then entry.name.suffix?.toList else []

namespace LinePart

variable {ε : Type}

def words (text : ε → List Char) (part : LinePart ε) : List (List Char) :=
  part.tag :: part.entries.map text

def text (text : ε → List Char) (part : LinePart ε) : List Char := [' '].intercalate (part.words text)

end LinePart

namespace MappingLine

/-- The texts of the parts behind the total loop. -/
def levels (line : MappingLine) : List (List Char) :=
  line.outer.text LineEntry.text :: line.inner.map (LinePart.text InnerEntry.text)

def text (line : MappingLine) : List Char :=
  [' ', '-', ' '].intercalate (line.total.text LineEntry.text :: line.levels)

/-- The entries of all inner levels, in the order of the line. -/
def innerEntries (line : MappingLine) : List InnerEntry := line.inner.flatMap LinePart.entries

/-- The product of the counts of a letter in the inner levels. -/
def product (line : MappingLine) (name : LoopName) : Nat :=
  ((line.innerEntries.filter (·.name = name)).map (·.count.value)).prod

/-- The last spatial count of a letter. -/
def lastSpatial (line : MappingLine) (name : LoopName) : Nat :=
  ((line.innerEntries.filter fun entry => entry.name = name ∧ entry.spatial).getLast?.map
    (·.count.value)).getD 1

end MappingLine

/-! ## Reading the words -/

namespace LineMapping

/-- What an entry of the total loop says. -/
def addTotal (mapping : LineMapping) (entry : LineEntry) : LineMapping :=
  { mapping with totalLoop := mapping.totalLoop.setLoop entry.name entry.count.value }

/-- What an entry of the outer loop says. -/
def addOuter (mapping : LineMapping) (entry : LineEntry) : LineMapping :=
  { mapping with
    tileOutLoop := mapping.tileOutLoop.setLoop entry.name entry.count.value
    tileOutLoopOrder := mapping.tileOutLoopOrder ++ [entry.name] }

/-- What an entry of an inner level says. -/
def addInner (mapping : LineMapping) (entry : InnerEntry) : LineMapping :=
  (if entry.spatial then mapping.setSpatial entry.name entry.count.value else mapping).tileIn
    entry.name entry.count.value

theorem asUnsigned_value (n : Numeral) : asUnsigned n.value = n.value := by
  have hfits : n.value < 2 ^ 31 := n.fits
  unfold asUnsigned
  omega

theorem suffix?_not_isDigit {name : LoopName} : ∀ c ∈ name.suffix?, c.isDigit = false := by
  intro c hc
  cases name <;> cases hc <;> rfl

theorem count?_text (entry : LineEntry) : count? entry.text = some (entry.count.value : Int) := by
  have h := entry.count.stoi_append [] (by simp)
  rw [List.append_nil] at h
  simp [count?, LineEntry.text, h]

theorem loopName?_cons (name : LoopName) (text : List Char) :
    loopName? (name.letter :: text) = some name :=
  LoopName.ofLetter?_letter name

theorem totalWord_text (mapping : LineMapping) (entry : LineEntry) :
    mapping.totalWord entry.text = some (mapping.addTotal entry) := by
  have hname : loopName? entry.text = some entry.name := loopName?_cons _ _
  unfold totalWord addTotal
  simp only [count?_text, hname, Option.bind_eq_bind, Option.bind_some, asUnsigned_value]

theorem outerWord_text (mapping : LineMapping) (entry : LineEntry) :
    mapping.outerWord entry.text = some (mapping.addOuter entry) := by
  have hname : loopName? entry.text = some entry.name := loopName?_cons _ _
  unfold outerWord addOuter
  simp only [count?_text, hname, Option.bind_eq_bind, Option.bind_some, asUnsigned_value]

/-- The suffix of a letter is neither the letter nor in the number. -/
theorem suffix_notMem {name : LoopName} {c : Char} (hc : name.suffix? = some c) (n : Numeral) :
    c ≠ name.letter ∧ c ∉ n.digits := by
  refine ⟨?_, n.notMem (suffix?_not_isDigit c hc)⟩
  rintro rfl
  cases name <;> cases hc

theorem idxOf?_suffix (entry : LineEntry) {c : Char} (hc : entry.name.suffix? = some c) :
    entry.text.idxOf? c = none := by
  obtain ⟨hletter, hdigits⟩ := suffix_notMem hc entry.count
  simp [LineEntry.text, hletter, hdigits]

theorem suffixPos_plain (entry : LineEntry) : suffixPos entry.name entry.text = none := by
  unfold suffixPos
  cases hc : entry.name.suffix? with
  | none => rfl
  | some c => exact idxOf?_suffix entry hc

theorem suffixPos_spatial (entry : LineEntry) {c : Char} (hc : entry.name.suffix? = some c) :
    suffixPos entry.name (entry.text ++ [c]) = some (entry.count.digits.length + 1) := by
  have hnone := idxOf?_suffix entry hc
  unfold List.idxOf? at hnone
  unfold suffixPos List.idxOf?
  rw [hc, Option.bind_some, List.findIdx?_append, hnone]
  simp [LineEntry.text]

theorem innerWord_text (mapping : LineMapping) (entry : InnerEntry) :
    mapping.innerWord entry.text = some (mapping.addInner entry) := by
  have hname : loopName? entry.text = some entry.name := loopName?_cons _ _
  unfold innerWord addInner
  rw [hname, Option.bind_eq_bind, Option.bind_some]
  cases hspatial : entry.spatial with
  | false =>
    have htext : entry.text = entry.toLineEntry.text := by simp [InnerEntry.text, hspatial]
    rw [htext, suffixPos_plain, count?_text]
    rfl
  | true =>
    obtain ⟨c, hc⟩ : ∃ c, entry.name.suffix? = some c := by
      have hne := entry.name_ne_N hspatial
      cases hn : entry.name with
      | N => exact absurd hn hne
      | _ => exact ⟨_, rfl⟩
    have htext : entry.text = entry.toLineEntry.text ++ [c] := by
      simp [InnerEntry.text, hspatial, hc]
    have hread := entry.count.stoi_append [c] (by simpa using suffix?_not_isDigit c hc)
    have htake : ((entry.toLineEntry.text ++ [c]).drop 1).take (entry.count.digits.length + 1) =
        entry.count.digits ++ [c] := by
      simp [LineEntry.text]
    rw [htext, suffixPos_spatial _ hc]
    simp only [htake, hread, Option.bind_eq_bind, Option.bind_some, if_true, asUnsigned_value]

/-- A loop over words is a loop over the entries that they are the texts of. -/
theorem foldlM_text {ε : Type} {text : ε → List Char}
    {word : LineMapping → List Char → Option LineMapping} {add : LineMapping → ε → LineMapping}
    (h : ∀ mapping entry, word mapping (text entry) = some (add mapping entry)) (entries : List ε)
    (mapping : LineMapping) : (entries.map text).foldlM word mapping = some (entries.foldl add mapping) := by
  rw [List.foldlM_map]
  simp only [h]
  exact List.foldlM_pure

end LineMapping

/-! ## Reading the parts -/

/-- What stands between two `-` for a part: one that another part follows, or the last one. -/
def Segment (text segment : List Char) : Prop :=
  segment = ' ' :: (text ++ [' ']) ∨ segment = ' ' :: text

/-- The parts behind a `-` have a segment each. -/
theorem exists_segments {texts : List (List Char)} (hne : texts ≠ [])
    (hdash : ∀ text ∈ texts, '-' ∉ text) :
    ∃ segments, Lines '-' (' ' :: [' ', '-', ' '].intercalate texts) segments ∧
      List.Forall₂ Segment texts segments := by
  induction texts with
  | nil => exact absurd rfl hne
  | cons text texts ih =>
    have htext := hdash text List.mem_cons_self
    cases texts with
    | nil =>
      refine ⟨[' ' :: text], ?_, .cons (.inr rfl) .nil⟩
      rw [List.intercalate_singleton]
      exact .last (List.cons_ne_nil _ _) (by simpa using htext)
    | cons next texts =>
      obtain ⟨segments, hlines, hsegments⟩ :=
        ih (List.cons_ne_nil _ _) fun text htext => hdash text (List.mem_cons_of_mem _ htext)
      refine ⟨(' ' :: (text ++ [' '])) :: segments, ?_, .cons (.inl rfl) hsegments⟩
      have hline : Lines '-' ((' ' :: (text ++ [' '])) ++ '-' :: _) _ :=
        .cons (by simpa using htext) hlines
      simpa [List.intercalate_cons_cons] using hline

/-- What a word of a line is made of. -/
structure PlainWord (word : List Char) : Prop where
  ne_nil : word ≠ []
  space_notMem : ' ' ∉ word
  dash_notMem : '-' ∉ word

theorem LineEntry.plain (entry : LineEntry) : PlainWord entry.text where
  ne_nil := List.cons_ne_nil _ _
  space_notMem := by
    rw [LineEntry.text, List.mem_cons, not_or]
    exact ⟨by cases entry.name <;> decide, entry.count.notMem (by decide)⟩
  dash_notMem := by
    rw [LineEntry.text, List.mem_cons, not_or]
    exact ⟨by cases entry.name <;> decide, entry.count.notMem (by decide)⟩

theorem InnerEntry.plain (entry : InnerEntry) : PlainWord entry.text where
  ne_nil := List.append_ne_nil_of_left_ne_nil entry.toLineEntry.plain.ne_nil _
  space_notMem := by
    rw [InnerEntry.text, List.mem_append, not_or]
    refine ⟨entry.toLineEntry.plain.space_notMem, ?_⟩
    cases entry.spatial <;> cases entry.name <;> decide
  dash_notMem := by
    rw [InnerEntry.text, List.mem_append, not_or]
    refine ⟨entry.toLineEntry.plain.dash_notMem, ?_⟩
    cases entry.spatial <;> cases entry.name <;> decide

namespace LinePart

variable {ε : Type} {text : ε → List Char} (part : LinePart ε)

theorem words_plain (htext : ∀ entry, PlainWord (text entry)) :
    ∀ word ∈ part.words text, PlainWord word := by
  intro word hword
  rcases List.mem_cons.mp hword with rfl | hword
  · exact ⟨part.tag_ne_nil, part.space_notMem, part.dash_notMem⟩
  · obtain ⟨entry, -, rfl⟩ := List.mem_map.mp hword
    exact htext entry

theorem dash_notMem_text (htext : ∀ entry, PlainWord (text entry)) : '-' ∉ part.text text := by
  have hwords := part.words_plain htext
  unfold LinePart.text
  generalize part.words text = words at hwords
  induction words with
  | nil => exact List.not_mem_nil
  | cons word words ih =>
    have hword := (hwords word List.mem_cons_self).dash_notMem
    have ih := ih fun word hword => hwords word (List.mem_cons_of_mem _ hword)
    cases words with
    | nil => simpa using hword
    | cons => simp [List.intercalate_cons_cons, hword, ih]

/-- The words of a part, behind the blank before its tag. -/
theorem lines {segment : List Char} (h : Segment (part.text text) segment)
    (htext : ∀ entry, PlainWord (text entry)) : Lines ' ' segment ([] :: part.words text) := by
  have hwords := part.words_plain htext
  have hblank : ' ' ∉ ([] : List Char) := List.not_mem_nil
  rcases h with rfl | rfl
  · exact .cons hblank
      (.terminated (List.cons_ne_nil _ _) fun word hword => (hwords word hword).space_notMem)
  · exact .cons hblank
      (.intercalate fun word hword => ⟨(hwords word hword).ne_nil, (hwords word hword).space_notMem⟩)

end LinePart

/-! ## Reading the line -/

namespace LineMapping

variable {ε : Type} {text : ε → List Char} {part : LinePart ε} {segment : List Char}

theorem nextPart_pending (h : Segment (part.text text) segment)
    (htext : ∀ entry, PlainWord (text entry)) :
    Pending ' ' (nextPart ended segment) (part.entries.map text) := by
  obtain ⟨ss, hget, hpending⟩ := Pending.getline (.live (part.lines h htext))
  obtain ⟨ss', hget', hpending'⟩ := hpending.getline
  have hnext : nextPart ended segment = ss' := by
    unfold nextPart
    rw [show ended.clear.put segment = { rest := segment } from rfl, hget, hget']
  rwa [hnext]

/-- A part behind the total loop is read from the stream that the part before it left. -/
theorem nextPart_whileGetline {word : LineMapping → List Char → Option LineMapping}
    {add : LineMapping → ε → LineMapping} (h : Segment (part.text text) segment)
    (htext : ∀ entry, PlainWord (text entry))
    (hword : ∀ mapping entry, word mapping (text entry) = some (add mapping entry))
    (mapping : LineMapping) :
    (nextPart ended segment).whileGetline word ' ' mapping =
      some (ended, part.entries.foldl add mapping) := by
  rw [(nextPart_pending h htext).whileGetline, foldlM_text hword]
  rfl

theorem foldlM_innerPart {parts : List (LinePart InnerEntry)} {segments : List (List Char)}
    (h : List.Forall₂ Segment (parts.map (LinePart.text InnerEntry.text)) segments)
    (mapping : LineMapping) : segments.foldlM innerPart (ended, mapping) =
      some (ended, (parts.flatMap LinePart.entries).foldl addInner mapping) := by
  induction parts generalizing segments mapping with
  | nil =>
    cases h
    rfl
  | cons part parts ih =>
    rw [List.map_cons] at h
    cases h with
    | cons hsegment hsegments =>
      have hpart := nextPart_whileGetline hsegment InnerEntry.plain innerWord_text mapping
      rw [List.foldlM_cons, innerPart, hpart, List.flatMap_cons, List.foldl_append]
      exact ih hsegments _

end LineMapping

namespace MappingLine

/-- What a line says, entry by entry. -/
def read (line : MappingLine) : LineMapping :=
  line.innerEntries.foldl LineMapping.addInner
    (line.outer.entries.foldl LineMapping.addOuter
      (line.total.entries.foldl LineMapping.addTotal .empty))

theorem total_pending (line : MappingLine) : Pending ' '
    ((put {} (line.total.text LineEntry.text ++ [' '])).getline ' ').2
    (line.total.entries.map LineEntry.text) := by
  have hwords := line.total.words_plain LineEntry.plain
  have hlines : Lines ' ' (line.total.text LineEntry.text ++ [' ']) (line.total.words LineEntry.text) :=
    .terminated (List.cons_ne_nil _ _) fun word hword => (hwords word hword).space_notMem
  obtain ⟨ss, hget, hpending⟩ := Pending.getline (.live hlines)
  rw [show put {} (line.total.text LineEntry.text ++ [' ']) =
    { rest := line.total.text LineEntry.text ++ [' '] } from rfl, hget]
  exact hpending

/-- The line without its total loop is cut into the parts of it. -/
theorem exists_level_segments (line : MappingLine) :
    ∃ outSegment segments, Segment (line.outer.text LineEntry.text) outSegment ∧
      List.Forall₂ Segment (line.inner.map (LinePart.text InnerEntry.text)) segments ∧
      Lines '-' line.text
        ((line.total.text LineEntry.text ++ [' ']) :: outSegment :: segments) := by
  have hdash : ∀ text ∈ line.levels, '-' ∉ text := by
    intro text htext
    rcases List.mem_cons.mp htext with rfl | htext
    · exact line.outer.dash_notMem_text LineEntry.plain
    · obtain ⟨part, -, rfl⟩ := List.mem_map.mp htext
      exact part.dash_notMem_text InnerEntry.plain
  obtain ⟨segments, hlines, hsegments⟩ := exists_segments (List.cons_ne_nil _ _) hdash
  cases hsegments with
  | cons houter hinner =>
    refine ⟨_, _, houter, hinner, ?_⟩
    have htotal := line.total.dash_notMem_text LineEntry.plain
    have hline : Lines '-' ((line.total.text LineEntry.text ++ [' ']) ++ '-' :: _) _ :=
      .cons (by simpa using htotal) hlines
    unfold MappingLine.text levels
    rw [List.intercalate_cons_cons]
    simpa using hline

/-- The constructor reads a line entry by entry. -/
theorem ofLine_eq_read (line : MappingLine) : LineMapping.ofLine line.text = some line.read := by
  obtain ⟨outSegment, segments, houter, hinner, hlines⟩ := line.exists_level_segments
  obtain ⟨level, hlevel, hpending⟩ := Pending.getline (.live hlines)
  obtain ⟨level', hlevel', hpending'⟩ := hpending.getline
  have htotal := line.total_pending.whileGetline LineMapping.totalWord LineMapping.empty
  rw [LineMapping.foldlM_text LineMapping.totalWord_text] at htotal
  have houtside := LineMapping.nextPart_whileGetline houter LineEntry.plain LineMapping.outerWord_text
    (line.total.entries.foldl LineMapping.addTotal .empty)
  have hinside := LineMapping.foldlM_innerPart hinner
    (line.outer.entries.foldl LineMapping.addOuter (line.total.entries.foldl LineMapping.addTotal .empty))
  unfold LineMapping.ofLine
  simp only [show put {} line.text = { rest := line.text } from rfl, hlevel, hlevel', htotal,
    Option.map_some, Option.bind_eq_bind, Option.bind_some, houtside, hpending'.whileGetline, hinside]
  rfl

/-! ## What a line says of each letter -/

theorem getLoop_foldl_of_notMem {entries : List LineEntry} {name : LoopName}
    (hname : name ∉ entries.map LineEntry.name) (counts : LoopCounts) :
    (entries.foldl (fun counts entry => counts.setLoop entry.name entry.count.value) counts).getLoop
      name = counts.getLoop name := by
  induction entries generalizing counts with
  | nil => rfl
  | cons entry entries ih =>
    rw [List.map_cons, List.mem_cons, not_or] at hname
    rw [List.foldl_cons, ih hname.2, LoopCounts.getLoop_setLoop, if_neg (Ne.symm hname.1)]

theorem getLoop_foldl_of_mem {entries : List LineEntry} {entry : LineEntry}
    (hnodup : (entries.map LineEntry.name).Nodup) (hentry : entry ∈ entries) (counts : LoopCounts) :
    (entries.foldl (fun counts entry => counts.setLoop entry.name entry.count.value) counts).getLoop
      entry.name = entry.count.value := by
  induction entries generalizing counts with
  | nil => cases hentry
  | cons first entries ih =>
    rw [List.map_cons, List.nodup_cons] at hnodup
    rw [List.foldl_cons]
    rcases List.mem_cons.mp hentry with rfl | hentry
    · rw [getLoop_foldl_of_notMem hnodup.1, LoopCounts.getLoop_setLoop, if_pos rfl]
    · exact ih hnodup.2 hentry _

end MappingLine

namespace LineMapping

/-- What no entry changes is as it was. -/
theorem foldl_keeps {ε τ : Type} {f : LineMapping → τ} {g : LineMapping → ε → LineMapping}
    (h : ∀ mapping entry, f (g mapping entry) = f mapping) (entries : List ε)
    (mapping : LineMapping) : f (entries.foldl g mapping) = f mapping := by
  induction entries generalizing mapping with
  | nil => rfl
  | cons entry entries ih => rw [List.foldl_cons, ih, h]

theorem totalLoop_foldl_addTotal (entries : List LineEntry) (mapping : LineMapping) :
    (entries.foldl addTotal mapping).totalLoop =
      entries.foldl (fun counts entry => counts.setLoop entry.name entry.count.value)
        mapping.totalLoop :=
  (List.foldl_hom (fun mapping : LineMapping => mapping.totalLoop) fun _ _ => rfl).symm

theorem tileOutLoop_foldl_addOuter (entries : List LineEntry) (mapping : LineMapping) :
    (entries.foldl addOuter mapping).tileOutLoop =
      entries.foldl (fun counts entry => counts.setLoop entry.name entry.count.value)
        mapping.tileOutLoop :=
  (List.foldl_hom (fun mapping : LineMapping => mapping.tileOutLoop) fun _ _ => rfl).symm

theorem tileOutLoopOrder_foldl_addOuter (entries : List LineEntry) (mapping : LineMapping) :
    (entries.foldl addOuter mapping).tileOutLoopOrder =
      mapping.tileOutLoopOrder ++ entries.map LineEntry.name := by
  induction entries generalizing mapping with
  | nil => simp
  | cons entry entries ih =>
    rw [List.foldl_cons, ih]
    simp [addOuter]

theorem totalLoop_addInner (mapping : LineMapping) (entry : InnerEntry) :
    (mapping.addInner entry).totalLoop = mapping.totalLoop := by
  unfold addInner
  cases entry.spatial <;> cases entry.name <;> rfl

theorem tileOutLoop_addInner (mapping : LineMapping) (entry : InnerEntry) :
    (mapping.addInner entry).tileOutLoop = mapping.tileOutLoop := by
  unfold addInner
  cases entry.spatial <;> cases entry.name <;> rfl

theorem tileOutLoopOrder_addInner (mapping : LineMapping) (entry : InnerEntry) :
    (mapping.addInner entry).tileOutLoopOrder = mapping.tileOutLoopOrder := by
  unfold addInner
  cases entry.spatial <;> cases entry.name <;> rfl

theorem getLoop_addInner (mapping : LineMapping) (entry : InnerEntry) (name : LoopName) :
    (mapping.addInner entry).tileInLoop.getLoop name =
      if entry.name = name then mapping.tileInLoop.getLoop name * entry.count.value % 2 ^ 32
      else mapping.tileInLoop.getLoop name := by
  have hkeep : (if entry.spatial then mapping.setSpatial entry.name entry.count.value
      else mapping).tileInLoop = mapping.tileInLoop := by
    cases entry.spatial <;> cases entry.name <;> rfl
  unfold addInner tileIn
  rw [hkeep, LoopCounts.getLoop_setLoop, asUnsigned_value]
  split <;> rename_i hname
  · rw [hname]
  · rfl

theorem spatial?_setSpatial (mapping : LineMapping) {a : LoopName} (ha : a ≠ .N) (b : LoopName)
    (count : Nat) : (mapping.setSpatial a count).spatial? b =
      if a = b then some count else mapping.spatial? b := by
  cases a <;> cases b <;> first | rfl | exact absurd rfl ha

theorem spatial?_addInner (mapping : LineMapping) (entry : InnerEntry) (name : LoopName) :
    (mapping.addInner entry).spatial? name =
      if entry.name = name ∧ entry.spatial then some entry.count.value
      else mapping.spatial? name := by
  have hkeep (mapping : LineMapping) (count : Int) :
      (mapping.tileIn entry.name count).spatial? name = mapping.spatial? name := by
    cases name <;> rfl
  unfold addInner
  rw [hkeep]
  cases hspatial : entry.spatial with
  | false => simp
  | true => simp [spatial?_setSpatial mapping (entry.name_ne_N hspatial)]

/-- The counts of a letter are multiplied in the arithmetic of `uint32_t`. -/
theorem getLoop_foldl_addInner (entries : List InnerEntry) (name : LoopName) {mapping : LineMapping}
    (hmapping : mapping.tileInLoop.getLoop name < 2 ^ 32) :
    (entries.foldl addInner mapping).tileInLoop.getLoop name =
      mapping.tileInLoop.getLoop name *
        ((entries.filter (·.name = name)).map (·.count.value)).prod % 2 ^ 32 := by
  induction entries generalizing mapping with
  | nil => simpa using (Nat.mod_eq_of_lt hmapping).symm
  | cons entry entries ih =>
    have hget := mapping.getLoop_addInner entry name
    rw [List.foldl_cons]
    by_cases hname : entry.name = name
    · rw [if_pos hname] at hget
      have hlt : (mapping.addInner entry).tileInLoop.getLoop name < 2 ^ 32 :=
        hget ▸ Nat.mod_lt _ (by decide)
      rw [ih hlt, hget, List.filter_cons_of_pos (by simpa using hname), List.map_cons, List.prod_cons,
        Nat.mod_mul_mod, Nat.mul_assoc]
    · rw [if_neg hname] at hget
      rw [ih (hget ▸ hmapping), hget, List.filter_cons_of_neg (by simpa using hname)]

/-- The spatial count of a letter is the last one. -/
theorem spatial?_foldl_addInner (entries : List InnerEntry) {name : LoopName}
    {mapping : LineMapping} {count : Nat} (hmapping : mapping.spatial? name = some count) :
    (entries.foldl addInner mapping).spatial? name =
      some (((entries.filter fun entry => entry.name = name ∧ entry.spatial).getLast?.map
        (·.count.value)).getD count) := by
  induction entries generalizing mapping count with
  | nil => exact hmapping
  | cons entry entries ih =>
    have hget := mapping.spatial?_addInner entry name
    rw [List.foldl_cons]
    by_cases hentry : entry.name = name ∧ entry.spatial
    · rw [if_pos hentry] at hget
      rw [ih hget, List.filter_cons_of_pos (by simpa using hentry), List.getLast?_cons]
      cases (entries.filter fun entry => entry.name = name ∧ entry.spatial).getLast? <;> rfl
    · rw [if_neg hentry, hmapping] at hget
      rw [ih hget, List.filter_cons_of_neg (by simpa using hentry)]

end LineMapping

/-- `counts` are the numbers that the part gives the letters, 1 for a letter that it does not name. -/
structure LinePart.Counted (part : LinePart LineEntry) (counts : LoopCounts) : Prop where
  written : ∀ entry ∈ part.entries, counts.getLoop entry.name = entry.count.value
  omitted : ∀ name, name ∉ part.entries.map LineEntry.name → counts.getLoop name = 1

namespace MappingLine

theorem counted_foldl {part : LinePart LineEntry} (hnodup : (part.entries.map LineEntry.name).Nodup) :
    part.Counted
      (part.entries.foldl (fun counts entry => counts.setLoop entry.name entry.count.value) {}) where
  written _ hentry := getLoop_foldl_of_mem hnodup hentry _
  omitted _ hname := (getLoop_foldl_of_notMem hname _).trans (LoopCounts.getLoop_default _)

variable (line : MappingLine)

theorem totalLoop_read : line.read.totalLoop =
    line.total.entries.foldl (fun counts entry => counts.setLoop entry.name entry.count.value) {} := by
  unfold read
  rw [LineMapping.foldl_keeps (f := fun mapping => mapping.totalLoop) LineMapping.totalLoop_addInner,
    LineMapping.foldl_keeps (f := fun mapping => mapping.totalLoop) (g := LineMapping.addOuter)
      fun _ _ => rfl,
    LineMapping.totalLoop_foldl_addTotal]
  rfl

theorem tileOutLoop_read : line.read.tileOutLoop =
    line.outer.entries.foldl (fun counts entry => counts.setLoop entry.name entry.count.value) {} := by
  unfold read
  rw [LineMapping.foldl_keeps (f := fun mapping => mapping.tileOutLoop)
      LineMapping.tileOutLoop_addInner, LineMapping.tileOutLoop_foldl_addOuter,
    LineMapping.foldl_keeps (f := fun mapping => mapping.tileOutLoop) (g := LineMapping.addTotal)
      fun _ _ => rfl]
  rfl

theorem tileOutLoopOrder_read :
    line.read.tileOutLoopOrder = line.outer.entries.map LineEntry.name := by
  unfold read
  rw [LineMapping.foldl_keeps (f := fun mapping => mapping.tileOutLoopOrder)
      LineMapping.tileOutLoopOrder_addInner, LineMapping.tileOutLoopOrder_foldl_addOuter,
    LineMapping.foldl_keeps (f := fun mapping => mapping.tileOutLoopOrder) (g := LineMapping.addTotal)
      fun _ _ => rfl]
  rfl

/-- The inner levels start from counts and spatial counts of 1. -/
theorem tileInLoop_outer (entries : List LineEntry) :
    (entries.foldl LineMapping.addOuter
      (line.total.entries.foldl LineMapping.addTotal .empty)).tileInLoop = {} := by
  rw [LineMapping.foldl_keeps (f := fun mapping => mapping.tileInLoop) (g := LineMapping.addOuter)
      fun _ _ => rfl,
    LineMapping.foldl_keeps (f := fun mapping => mapping.tileInLoop) (g := LineMapping.addTotal)
      fun _ _ => rfl]
  rfl

theorem spatial?_outer (entries : List LineEntry) (name : LoopName) :
    (entries.foldl LineMapping.addOuter
      (line.total.entries.foldl LineMapping.addTotal .empty)).spatial? name =
      LineMapping.empty.spatial? name := by
  have houter (mapping : LineMapping) (entry : LineEntry) :
      (mapping.addOuter entry).spatial? name = mapping.spatial? name := by
    cases name <;> rfl
  have htotal (mapping : LineMapping) (entry : LineEntry) :
      (mapping.addTotal entry).spatial? name = mapping.spatial? name := by
    cases name <;> rfl
  rw [LineMapping.foldl_keeps (f := fun mapping => mapping.spatial? name) houter,
    LineMapping.foldl_keeps (f := fun mapping => mapping.spatial? name) htotal]

theorem tileInLoop_read (name : LoopName) :
    line.read.tileInLoop.getLoop name = line.product name % 2 ^ 32 := by
  have hone := congrArg (LoopCounts.getLoop · name) (line.tileInLoop_outer line.outer.entries)
  simp only [LoopCounts.getLoop_default] at hone
  unfold read product
  rw [LineMapping.getLoop_foldl_addInner _ _ (by rw [hone]; decide), hone, Nat.one_mul]

theorem spatial?_read {name : LoopName} (hname : name ≠ .N) :
    line.read.spatial? name = some (line.lastSpatial name) := by
  refine LineMapping.spatial?_foldl_addInner _ ?_
  rw [spatial?_outer]
  cases name <;> first | rfl | exact absurd rfl hname

/-- A line is read as it is written, up to the width of `tile_in_loop`. -/
theorem ofLine_text : ∃ mapping, LineMapping.ofLine line.text = some mapping ∧
    line.total.Counted mapping.totalLoop ∧ line.outer.Counted mapping.tileOutLoop ∧
    (∀ name, mapping.tileInLoop.getLoop name = line.product name % 2 ^ 32) ∧
    (∀ name, mapping.spatial? name = if name = .N then none else some (line.lastSpatial name)) ∧
    mapping.tileOutLoopOrder = line.outer.entries.map LineEntry.name := by
  refine ⟨line.read, line.ofLine_eq_read, ?_, ?_, line.tileInLoop_read, fun name => ?_,
    line.tileOutLoopOrder_read⟩
  · rw [totalLoop_read]
    exact counted_foldl line.total_nodup
  · rw [tileOutLoop_read]
    exact counted_foldl line.outer_nodup
  · split <;> rename_i hname
    · rw [hname]
      rfl
    · exact line.spatial?_read hname

end MappingLine

/-! ## A product that does not fit -/

/-- `T - O - I N65536 N65536`. -/
def wideLine : MappingLine where
  total := { tag := ['T'], tag_ne_nil := by decide, space_notMem := by decide,
             dash_notMem := by decide, entries := [] }
  outer := { tag := ['O'], tag_ne_nil := by decide, space_notMem := by decide,
             dash_notMem := by decide, entries := [] }
  inner :=
    let entry : InnerEntry :=
      { name := .N, count := .ofNat 65536 (by decide), spatial := false, name_ne_N := nofun }
    [{ tag := ['I'], tag_ne_nil := by decide, space_notMem := by decide,
       dash_notMem := by decide, entries := [entry, entry] }]
  total_nodup := .nil
  outer_nodup := .nil

/-- The product of the inner counts is `2 ^ 32`, and `tile_in_loop` has 0. -/
theorem ofLine_wideLine : ¬ ∃ mapping, LineMapping.ofLine wideLine.text = some mapping ∧
    ∀ name, mapping.tileInLoop.getLoop name = wideLine.product name := by
  rintro ⟨mapping, hread, hproduct⟩
  obtain rfl := Option.some.inj (wideLine.ofLine_eq_read.symm.trans hread)
  have hN := hproduct .N
  rw [MappingLine.tileInLoop_read] at hN
  exact absurd hN (by decide)

end OnnxSim
