import RegCode.Text.Quoted
import RegCode.Token

/-!
# Lexemes

What the text at a place begins with, without regard to where the place is. `gap` measures the blanks and
comments in front of the next token, `Lexeme.read` takes that token. A lexeme has a width: the number of
bytes from its first to behind its last. Only a string that the end of the text cuts off behind a
backslash is one wider than the text that is left, since the escaped byte is missing.
-/

namespace RegCode

structure Lexeme where
  kind : Kind
  literal : Bytes
  width : Nat
  deriving DecidableEq, Repr

namespace Lexeme

def isBlank (b : UInt8) : Bool := b = 32 || b = 9 || b = 13 || b = 10

def isLetter (b : UInt8) : Bool := (97 ≤ b && b ≤ 122) || (65 ≤ b && b ≤ 90) || b = 95

def isWordByte (b : UInt8) : Bool := isLetter b || Text.isDigit b

/-! ## Gaps -/

/-- A line comment ends before a line feed, and before a zero byte. -/
def inLineComment (b : UInt8) : Bool := b ≠ 0 && b ≠ 10

/-- The number of bytes up to the end of a block comment that is already open. -/
def blockCommentRest : Nat → Bytes → Nat
  | n, 42 :: 47 :: _ => n + 2
  | n, _ :: rest => blockCommentRest (n + 1) rest
  | n, [] => n

/-- The width of the blanks or of the comment at the front; zero if there is neither. -/
def gapStep : Bytes → Nat
  | 47 :: 47 :: rest => 2 + (rest.takeWhile inLineComment).length
  | 47 :: 42 :: rest => blockCommentRest 2 rest
  | text => (text.takeWhile isBlank).length

/-- The text behind all blanks and comments at its front, and their width added to `n`. -/
def gapFrom (n : Nat) (text : Bytes) : Nat × Bytes :=
  if gapStep text = 0 then (n, text) else gapFrom (n + gapStep text) (text.drop (gapStep text))
termination_by text.length
decreasing_by
  cases text with
  | nil => contradiction
  | cons b rest => simp only [List.length_drop, List.length_cons]; omega

def gap (text : Bytes) : Nat := (gapFrom 0 text).1

/-! ## Words and numbers -/

def word (text : Bytes) : Lexeme :=
  let w := text.takeWhile isWordByte
  ⟨Kind.ofWord w, w, w.length⟩

/-- Digits, and a point with digits behind it if the point is followed by one. -/
def number (text : Bytes) : Lexeme :=
  let whole := text.takeWhile Text.isDigit
  match text.dropWhile Text.isDigit with
  | 46 :: d :: rest =>
    if Text.isDigit d then
      let places := (d :: rest).takeWhile Text.isDigit
      ⟨.float, whole ++ 46 :: places, whole.length + 1 + places.length⟩
    else ⟨.int, whole, whole.length⟩
  | _ => ⟨.int, whole, whole.length⟩

/-! ## Strings -/

/-- The bytes that a backslash and the byte behind it stand for. An unknown escape stands for itself. -/
def unescape (b : UInt8) : Bytes :=
  if b = 34 || b = 92 then [b]
  else if b = 110 then [10]
  else if b = 114 then [13]
  else if b = 116 then [9]
  else [92, b]

def unterminated (width : Nat) : Lexeme := ⟨.illegal, txt "unterminated string", width⟩

/-- Reads a string of which `width` bytes are read and `acc` is the content so far, last byte first. -/
def stringRest (acc : Bytes) (width : Nat) : Bytes → Lexeme
  | [] => unterminated width
  | 34 :: _ => ⟨.string, acc.reverse, width + 1⟩
  | 92 :: [] => unterminated (width + 2)
  | 92 :: b :: rest => stringRest ((unescape b).reverse ++ acc) (width + 2) rest
  | b :: rest => stringRest (b :: acc) (width + 1) rest

/-! ## Operators and delimiters -/

def single? (b : UInt8) : Option Kind :=
  match b.toNat with
  | 43 => some .plus
  | 45 => some .minus
  | 42 => some .star
  | 47 => some .slash
  | 44 => some .comma
  | 59 => some .semicolon
  | 40 => some .lparen
  | 41 => some .rparen
  | 123 => some .lbrace
  | 125 => some .rbrace
  | _ => none

def extensible? (b : UInt8) : Option (Kind × Kind) :=
  match b.toNat with
  | 61 => some (.assign, .equal)
  | 33 => some (.bang, .notEqual)
  | 60 => some (.less, .lessEqual)
  | 62 => some (.greater, .greaterEqual)
  | _ => none

/-- A whole character that cannot start a token, or a byte that is none. -/
def unexpected (b : UInt8) (text : Bytes) : Lexeme :=
  match Utf8.decode text with
  | some (c, more) => ⟨.illegal, txt "unexpected character " ++ Text.Quoted.quoteChar c, more + 1⟩
  | none => ⟨.illegal, txt "unexpected byte 0x" ++ Text.hexUpper 2 b.toNat, 1⟩

def read (b : UInt8) (rest : Bytes) : Lexeme :=
  match extensible? b with
  | some (one, two) =>
    match rest with
    | 61 :: _ => ⟨two, [b, 61], 2⟩
    | _ => ⟨one, [b], 1⟩
  | none =>
    match single? b with
    | some kind => ⟨kind, [b], 1⟩
    | none =>
      if b = 34 then stringRest [] 1 rest
      else if isLetter b then word (b :: rest)
      else if Text.isDigit b then number (b :: rest)
      else unexpected b (b :: rest)

/-! ## Widths -/

theorem width_stringRest_pos (acc : Bytes) (width : Nat) (text : Bytes) (h : 0 < width) :
    0 < (stringRest acc width text).width := by
  fun_induction stringRest acc width text with
  | case1 | case2 | case3 => simp [unterminated] <;> omega
  | case4 acc width b rest ih => exact ih (by omega)
  | case5 acc width b rest _ _ _ ih => exact ih (by omega)

theorem width_word_pos {b : UInt8} (h : isLetter b = true) (rest : Bytes) :
    0 < (word (b :: rest)).width := by
  simp [word, isWordByte, h]

theorem width_number_pos {b : UInt8} (h : Text.isDigit b = true) (rest : Bytes) :
    0 < (number (b :: rest)).width := by
  unfold number
  split
  · split
    · simp only [List.takeWhile_cons, h, ite_true, List.length_cons]
      omega
    · simp [h]
  · simp [h]

/-- Every lexeme is at least one byte wide, so that reading always moves on. -/
theorem width_read_pos (b : UInt8) (rest : Bytes) : 0 < (read b rest).width := by
  unfold read
  split
  · split <;> simp
  · split
    · simp
    · split
      · exact width_stringRest_pos _ _ _ (by omega)
      · split
        · exact width_word_pos (by assumption) rest
        · split
          · exact width_number_pos (by assumption) rest
          · unfold unexpected
            split <;> simp

end Lexeme

end RegCode
