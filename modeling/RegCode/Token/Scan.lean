import RegCode.Text.Canonical
import RegCode.Token.Lexeme

/-!
# Scanning

A cursor stands in a text and knows its position. `Cursor.nextToken` moves it behind the next token, and
`tokenize` collects the tokens of a source, the last of which marks the end. A source is brought into
composed normal form first, and positions count bytes of that form.

A step past a line feed starts a new line only if there is text behind it, and a step at the end of the
text still counts a column.
-/

namespace RegCode

structure Cursor where
  rest : Bytes
  pos : Position
  deriving Repr

namespace Cursor

/-- The position behind the byte `b`, which is the last of the text or not. -/
def past (p : Position) (b : UInt8) (last : Bool) : Position :=
  if b = Text.newline && !last then ⟨p.offset + 1, p.line + 1, 1⟩
  else ⟨p.offset + 1, p.line, p.column + 1⟩

def step : Cursor → Cursor
  | ⟨[], p⟩ => ⟨[], { p with column := p.column + 1 }⟩
  | ⟨b :: rest, p⟩ => ⟨rest, past p b rest.isEmpty⟩

def advance : Nat → Cursor → Cursor
  | 0, c => c
  | n + 1, c => advance n c.step

@[simp]
theorem rest_step (c : Cursor) : c.step.rest = c.rest.drop 1 := by
  obtain ⟨rest, p⟩ := c
  cases rest <;> rfl

@[simp]
theorem rest_advance (n : Nat) (c : Cursor) : (c.advance n).rest = c.rest.drop n := by
  induction n generalizing c with
  | zero => rfl
  | succ n ih => rw [advance, ih, rest_step, List.drop_drop, Nat.add_comm]

def start (text : Bytes) : Cursor := ⟨text, ⟨0, 1, 1⟩⟩

def skipGap (c : Cursor) : Cursor := c.advance (Lexeme.gap c.rest)

/-- The next token and the cursor behind it. At the end this is the end again and again. -/
def nextToken (c : Cursor) : Token × Cursor :=
  let c := c.skipGap
  match c.rest with
  | [] => (⟨.eof, [], c.pos⟩, c)
  | b :: rest =>
    let l := Lexeme.read b rest
    (⟨l.kind, l.literal, c.pos⟩, c.advance l.width)

/-- Unless it is the end, the next token takes the cursor on. -/
theorem length_nextToken_lt (c : Cursor) (h : c.nextToken.1.kind ≠ .eof) :
    c.nextToken.2.rest.length < c.rest.length := by
  have hl : c.skipGap.rest.length ≤ c.rest.length := by simp [skipGap]
  cases hr : c.skipGap.rest with
  | nil => exact absurd (by simp [nextToken, hr]) h
  | cons b rest =>
    have := Lexeme.width_read_pos b rest
    simp only [nextToken, hr, rest_advance, List.length_drop, List.length_cons] at hl ⊢
    omega

/-- The tokens up to the end, behind those of `acc`, which are held last one first, and the cursor there. -/
def tokensOnto (acc : List Token) (c : Cursor) : List Token × Cursor :=
  let next := c.nextToken
  if next.1.kind = .eof then ((next.1 :: acc).reverse, next.2) else tokensOnto (next.1 :: acc) next.2
termination_by c.rest.length
decreasing_by exact c.length_nextToken_lt (by assumption)

end Cursor

def Cursor.ofSource (source : Bytes) : Cursor := .start (Text.Canonical.compose source)

/-- The tokens of a source, the last of which marks its end. -/
def tokenize (source : Bytes) : List Token := (Cursor.ofSource source |>.tokensOnto []).1

end RegCode
