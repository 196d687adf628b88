import RegCode.Text.Utf8

/-!
# Blank space and letter case

White space by the Unicode property, and the lower-case form of a text as far as it is ASCII. Both are
for what a user types at a prompt; source text has its own blanks.
-/

namespace RegCode.Text

def isWhiteSpace (c : Char) : Bool :=
  let n := c.toNat
  (9 ≤ n && n ≤ 13) || n == 0x20 || n == 0x85 || n == 0xA0 || n == 0x1680 ||
    (0x2000 ≤ n && n ≤ 0x200A) || n == 0x2028 || n == 0x2029 || n == 0x202F || n == 0x205F ||
    n == 0x3000

def isBlankCell : Utf8.Cell → Bool
  | .scalar c => isWhiteSpace c
  | .stray _ => false

def trim (text : Bytes) : Bytes :=
  let front := (Utf8.cells text).dropWhile isBlankCell
  (front.reverse.dropWhile isBlankCell).reverse.flatMap (·.bytes)

/-- The ASCII letter that is the lower-case form of a character, or the character. Two characters
outside ASCII have such a form: the dotted capital I and the kelvin sign. -/
def lowerCell : Utf8.Cell → Bytes
  | .scalar c =>
    if c.toNat = 0x130 then [105]
    else if c.toNat = 0x212A then [107]
    else if 65 ≤ c.toNat && c.toNat ≤ 90 then [UInt8.ofNat (c.toNat + 32)]
    else String.utf8EncodeChar c
  | .stray b => [b]

/-- The text with every character that has an ASCII letter as its lower-case form replaced by it. -/
def lower (text : Bytes) : Bytes := (Utf8.cells text).flatMap lowerCell

end RegCode.Text
