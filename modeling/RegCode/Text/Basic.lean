/-!
# Text as bytes

Source files, names, messages and listings are lists of bytes, because a source need not be valid
UTF-8 and whatever it holds has to come out unchanged. This module has the few writers that every
output is put together from: numbers in decimal and hexadecimal, and fields of a given width.
-/

namespace RegCode

/-- Text as it is stored: bytes, valid UTF-8 or not. -/
abbrev Bytes := List UInt8

/-- The bytes of a literal piece of text. -/
def txt (s : String) : Bytes := s.toUTF8.toList

namespace Text

def newline : UInt8 := 10

def digit (n : Nat) : UInt8 := UInt8.ofNat (48 + n)

def isDigit (b : UInt8) : Bool := 48 ≤ b && b ≤ 57

def decimal (n : Nat) : Bytes :=
  if n < 10 then [digit n] else decimal (n / 10) ++ [digit (n % 10)]
termination_by n
decreasing_by omega

/-- A signed number in decimal: a minus sign in front of the negative ones only. -/
def integer : Int → Bytes
  | .ofNat n => decimal n
  | .negSucc n => 45 :: decimal (n + 1)

/-- A signed number in decimal with its sign always written. -/
def signed : Int → Bytes
  | .ofNat n => 43 :: decimal n
  | .negSucc n => 45 :: decimal (n + 1)

/-- `b` filled up on the left with `fill` to at least `width` bytes. -/
def padLeft (width : Nat) (fill : UInt8) (b : Bytes) : Bytes :=
  List.replicate (width - b.length) fill ++ b

/-- `b` filled up on the right with blanks to at least `width` bytes. -/
def padRight (width : Nat) (b : Bytes) : Bytes :=
  b ++ List.replicate (width - b.length) 32

/-- A signed number filled up with zeros between sign and digits, `width` counting the sign. -/
def zeroPadded (width : Nat) : Int → Bytes
  | .ofNat n => padLeft width 48 (decimal n)
  | .negSucc n => 45 :: padLeft (width - 1) 48 (decimal (n + 1))

def hexDigit (n : Nat) : UInt8 := if n < 10 then digit n else UInt8.ofNat (87 + n)

def hexDigitUpper (n : Nat) : UInt8 := if n < 10 then digit n else UInt8.ofNat (55 + n)

/-- The last `width` hexadecimal digits of `n`, each written by `write`. -/
def hexWith (write : Nat → UInt8) : Nat → Nat → Bytes
  | 0, _ => []
  | width + 1, n => hexWith write width (n / 16) ++ [write (n % 16)]

def hex (width n : Nat) : Bytes := hexWith hexDigit width n

def hexUpper (width n : Nat) : Bytes := hexWith hexDigitUpper width n

def hexDump (b : Bytes) : Bytes := b.flatMap fun x => hex 2 x.toNat

/-- The pieces one after the other with `sep` between neighbours. -/
def join (sep : Bytes) (pieces : List Bytes) : Bytes := (pieces.intersperse sep).flatten

/-- The text without the longest run of `drop` bytes at its end. -/
def trimEnd (drop : UInt8 → Bool) (b : Bytes) : Bytes := (b.reverse.dropWhile drop).reverse

/-- The pieces of `b` between the bytes `sep`: one more than there are such bytes. -/
def splitOn (sep : UInt8) (b : Bytes) : List Bytes :=
  let (last, pieces) := b.foldl
    (fun (cur, pieces) x => if x = sep then ([], cur.reverse :: pieces) else (x :: cur, pieces))
    (([] : Bytes), ([] : List Bytes))
  (last.reverse :: pieces).reverse

end Text

end RegCode
