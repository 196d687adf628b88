import RegCode.Text.Printable
import RegCode.Text.Utf8

/-!
# Quoted text

A text or a character between quotes in a form that shows every byte: printable characters stand for
themselves, a few control characters have an escape of one letter, and everything else is written by its
code, a byte that is no character with two hexadecimal digits.
-/

namespace RegCode.Text.Quoted

def backslash : UInt8 := 92

/-- The letter behind the backslash for a control character that has one. -/
def letter? (c : Char) : Option UInt8 :=
  match c.toNat with
  | 7 => some 97
  | 8 => some 98
  | 12 => some 102
  | 10 => some 110
  | 13 => some 114
  | 9 => some 116
  | 11 => some 118
  | _ => none

/-- The written form of a character between marks `quote`. -/
def escape (quote : Char) (c : Char) : Bytes :=
  if c = quote || c = '\\' then backslash :: String.utf8EncodeChar c
  else if isPrintable c then String.utf8EncodeChar c
  else match letter? c with
    | some l => [backslash, l]
    | none =>
      let n := c.toNat
      if n < 0x20 || n = 0x7F then txt "\\x" ++ hex 2 n
      else if n < 0x10000 then txt "\\u" ++ hex 4 n
      else txt "\\U" ++ hex 8 n

def escapeCell (quote : Char) : Utf8.Cell → Bytes
  | .scalar c => escape quote c
  | .stray b => txt "\\x" ++ hex 2 b.toNat

def quote (text : Bytes) : Bytes :=
  34 :: ((Utf8.cells text).flatMap (escapeCell '"') ++ [34])

def quoteChar (c : Char) : Bytes := 39 :: (escape '\'' c ++ [39])

end RegCode.Text.Quoted
