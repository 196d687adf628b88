import RegCode.Text.Utf8
import RegCode.Text.Canonical.Table

/-!
# Canonical composition

`compose` brings a text into its composed normal form, in which canonically equivalent texts are equal.
The text is cut into segments: a starter with the marks behind it. In each segment every character is
decomposed, the marks are sorted by combining class, and marks are joined to the starter again as far as
composites exist.

Three rules go beyond the standard form. Bytes that are no characters are starters that join nothing. A
segment holds at most thirty marks: in front of the next one a grapheme joiner closes it, so that a
reader never has to look further ahead. And a character that is cut off by the end of the text ends the
work: it and what follows it stay as they are.
-/

namespace RegCode.Text.Canonical

/-! ## Properties of characters -/

def hangulFirst : Nat := 0xAC00
def hangulCount : Nat := 11172
def leadFirst : Nat := 0x1100
def vowelFirst : Nat := 0x1161
/-- One before the first final consonant: that place stands for no final consonant. -/
def finalBase : Nat := 0x11A7

def isHangul (c : Nat) : Bool := hangulFirst ≤ c && c < hangulFirst + hangulCount
def isLead (c : Nat) : Bool := leadFirst ≤ c && c < leadFirst + 19
def isVowel (c : Nat) : Bool := vowelFirst ≤ c && c < vowelFirst + 21
def isFinal (c : Nat) : Bool := finalBase < c && c < finalBase + 28

def combiningClass (c : Nat) : Nat :=
  match Sorted.find classes (fun e => (e / 0x10000000, e / 0x100 % 0x100000)) c with
  | some e => e % 0x100
  | none => 0

/-- Whether the character can be the second of a composite. -/
def joins (c : Nat) : Bool :=
  isVowel c || isFinal c || (Sorted.find joining (fun e => (e / 0x100000, e % 0x100000)) c).isSome

/-- The character in its decomposed form; `depth` bounds how often parts are decomposed again. -/
def decomposeWithin : Nat → Nat → List Nat
  | 0, c => [c]
  | depth + 1, c =>
    match Sorted.find decompositions (fun e => (e / 0x10000000000, e / 0x10000000000)) c with
    | none => [c]
    | some e =>
      let first := decomposeWithin depth (e / 0x100000 % 0x100000)
      if e % 0x100000 = 0 then first else first ++ [e % 0x100000]

/-- The character in its decomposed form. Decompositions nest three deep. -/
def decompose (c : Nat) : List Nat :=
  if isHangul c then
    let i := c - hangulFirst
    let start := [leadFirst + i / 588, vowelFirst + i % 588 / 28]
    if i % 28 = 0 then start else start ++ [finalBase + i % 28]
  else decomposeWithin 3 c

/-- The syllable of a leading consonant and a vowel, or of such a syllable and a final consonant. -/
def syllable (a b : Nat) : Option Nat :=
  if isLead a && isVowel b then
    some (hangulFirst + (a - leadFirst) * 588 + (b - vowelFirst) * 28)
  else if isHangul a && isFinal b && (a - hangulFirst) % 28 == 0 then some (a + (b - finalBase))
  else none

/-- The composite of two characters. Composites are told apart by the low sixteen bits of the two. -/
def composite (a b : Nat) : Option Nat :=
  let key := a % 0x10000 * 0x100000 + b % 0x10000
  (Sorted.find composites (fun e => (e / 0x100000, e / 0x100000)) key).map (· % 0x100000)

def isMark (c : Nat) : Bool := combiningClass c != 0 || joins c

def compatibleEntry (c : Nat) : Option Nat :=
  Sorted.find compatible (fun e => (e / 0x10000000, e / 0x100 % 0x100000)) c

/-- The number of marks at the end of the character's decomposed form. -/
def trailingMarks (c : Nat) : Nat :=
  if isHangul c then (if (c - hangulFirst) % 28 = 0 then 1 else 2)
  else match compatibleEntry c with
    | some e => e % 0x10
    | none => ((decompose c).reverse.takeWhile isMark).length

/-- The number of marks by which the character lengthens a segment; zero if it starts one. A few characters
that are no marks stand for marks only. -/
def marksAdded (c : Nat) : Nat :=
  if (decompose c).head?.any isMark then trailingMarks c
  else match compatibleEntry c with
    | some e => if e / 0x10 % 0x10 = 1 then e % 0x10 else 0
    | none => 0

/-! ## Segments -/

/-- A character of a segment, or a byte that is none, with what sorting and joining need to know. -/
structure Mark where
  cell : Utf8.Cell
  rank : Nat
  joins : Bool

def Mark.ofCode (c : Nat) : Mark := ⟨.scalar (Char.ofNat c), combiningClass c, Canonical.joins c⟩

/-- The code point, and for a stray byte none that takes part in a composite. -/
def Mark.code (m : Mark) : Nat :=
  match m.cell with
  | .scalar c => c.toNat
  | .stray _ => 0

def Mark.ofCell : Utf8.Cell → List Mark
  | .scalar c => (decompose c.toNat).map Mark.ofCode
  | .stray b => [⟨.stray b, 0, false⟩]

def graphemeJoiner : Mark := ⟨.scalar (Char.ofNat 0x034F), 0, false⟩

/-- Puts a mark into a segment that is held last mark first: behind all of at most its rank. A starter
goes to the end. -/
def insert (m : Mark) : List Mark → List Mark
  | [] => [m]
  | x :: rest => if m.rank ≠ 0 ∧ m.rank < x.rank then x :: insert m rest else m :: x :: rest

/-- A segment while it is joined: the base that marks are joined to, what stands before it and what
behind it, both last mark first. -/
structure Joint where
  before : List Mark
  base : Mark
  behind : List Mark

namespace Joint

def last (j : Joint) : Mark := j.behind.headD j.base

def push (j : Joint) (m : Mark) : Joint := { j with behind := m :: j.behind }

def rebase (j : Joint) : Joint :=
  match j.behind with
  | [] => j
  | m :: rest => ⟨rest ++ j.base :: j.before, m, []⟩

/-- The last mark keeps one of the rank of `m` from joining the base. -/
def blocks (j : Joint) (m : Mark) : Bool := !j.behind.isEmpty && m.rank ≤ j.last.rank

/-- Joins `m` to the base by `pair`, or puts it at the end. -/
def joinBy (pair : Nat → Nat → Option Nat) (j : Joint) (m : Mark) : Joint :=
  let j := if j.last.rank = 0 then j.rebase else j
  if j.blocks m then j.push m
  else match pair j.base.code m.code with
    | some c => { j with base := ⟨.scalar (Char.ofNat c), 0, false⟩ }
    | none => j.push m

/-- Joins the marks one after the other. From the first vowel or final consonant of a syllable on,
only syllables are formed. -/
def joinAll : Bool → Joint → List Mark → Joint
  | _, j, [] => j
  | syllables, j, m :: rest =>
    let syllables := syllables || (isVowel m.code || isFinal m.code)
    if syllables then joinAll syllables (j.joinBy syllable m) rest
    else if m.joins then joinAll syllables (j.joinBy composite m) rest
    else joinAll syllables (j.push m) rest

def marks (j : Joint) : List Mark := j.before.reverse ++ j.base :: j.behind.reverse

end Joint

/-- The bytes of a finished segment, which is held last mark first. -/
def segmentBytes (segment : List Mark) : Bytes :=
  match segment.reverse with
  | [] => []
  | m :: rest => (Joint.joinAll false ⟨[], m, []⟩ rest).marks.flatMap (·.cell.bytes)

def maxMarks : Nat := 30

/-- The composed form of the cells to come. `segment` is the open segment, last mark first, `count` the
number of marks by the limit's reckoning, and `done` the finished segments, the last one first. -/
def composeCells : List Bytes → List Mark → Nat → List Utf8.Cell → Bytes
  | done, segment, _, [] => ((segmentBytes segment :: done).reverse).flatten
  | done, segment, count, cell :: rest =>
    let added := match cell with
      | .scalar c => marksAdded c.toNat
      | .stray _ => 0
    let ending := match cell with
      | .scalar c => trailingMarks c.toNat
      | .stray _ => 0
    let fresh := (Mark.ofCell cell).foldl (fun s m => insert m s) []
    if added = 0 then composeCells (segmentBytes segment :: done) fresh ending rest
    else if maxMarks < count + added then
      composeCells (segmentBytes (graphemeJoiner :: segment) :: done) fresh added rest
    else
      composeCells done ((Mark.ofCell cell).foldl (fun s m => insert m s) segment) (count + added) rest

/-! ## Texts -/

/-- The cells of a text up to the first character that its end cuts off, in reverse, and the rest. -/
def wholeCells (acc : List Utf8.Cell) : Bytes → List Utf8.Cell × Bytes
  | [] => (acc, [])
  | b :: rest =>
    match Utf8.announced b with
    | none => wholeCells (.stray b :: acc) rest
    | some (more, _) =>
      if more ≤ (rest.take more).length then
        match Utf8.decode (b :: rest) with
        | some (c, more) => wholeCells (.scalar c :: acc) (rest.drop more)
        | none => wholeCells (.stray b :: acc) rest
      else (acc, b :: rest)
termination_by text => text.length
decreasing_by all_goals simp only [List.length_cons, List.length_drop]; omega

def isAscii (b : UInt8) : Bool := b < 0x80

/-- The composed normal form. A text of ASCII characters is its own. -/
def compose (text : Bytes) : Bytes :=
  if text.all isAscii then text
  else
    let (cells, rest) := wholeCells [] text
    composeCells [] [] 0 cells.reverse ++ rest

end RegCode.Text.Canonical
