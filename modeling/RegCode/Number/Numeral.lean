import RegCode.Number.Binary64
import RegCode.Text.Basic

/-!
# Reading numerals

`readInt64` reads an integer with an optional sign that fits in 64 bits. `readBinary64` reads a number
with an optional sign, point and exponent, in decimal or, behind `0x` and with a binary exponent, in
hexadecimal; underscores may stand between digits. It gives the nearest number of the format and refuses
a numeral whose value is too large for it.
-/

namespace RegCode.Numeral

/-! ## Integers -/

def digitValue (b : UInt8) : Nat := b.toNat - 48

def ofDigits (digits : Bytes) : Nat := digits.foldl (fun n b => n * 10 + digitValue b) 0

/-- Splits off a sign: whether it is a minus, and what follows. -/
def splitSign : Bytes → Bool × Bytes
  | 43 :: rest => (false, rest)
  | 45 :: rest => (true, rest)
  | text => (false, text)

/-- More digits than these, leading zeros apart, do not fit in 64 bits. -/
def maxDigits64 : Nat := 19

/-- The integer that a numeral stands for, if it is one and fits in 64 bits. -/
def readInt64 (text : Bytes) : Option Int64 :=
  let (negative, digits) := splitSign text
  let significant := digits.dropWhile (· = 48)
  if digits.isEmpty || !digits.all Text.isDigit || maxDigits64 < significant.length then none
  else
    let n := ofDigits significant
    if negative then if n ≤ 0x8000000000000000 then some (Int64.ofInt (-n)) else none
    else if n < 0x8000000000000000 then some (Int64.ofNat n) else none

/-! ## Digits of a base -/

def toLower (b : UInt8) : UInt8 := if 65 ≤ b && b ≤ 90 then b + 32 else b

inductive Base where
  | ten
  | sixteen
  deriving DecidableEq

namespace Base

def radix : Base → Nat
  | ten => 10
  | sixteen => 16

def exponentMark : Base → UInt8
  | ten => 101
  | sixteen => 112

/-- So many digits are kept; of the others it matters only whether one is not zero. No number of the
format and no midpoint of two has more. -/
def kept : Base → Nat
  | ten => 800
  | sixteen => 300

def value? (base : Base) (b : UInt8) : Option Nat :=
  if Text.isDigit b then some (digitValue b)
  else
    let l := toLower b
    if base = .sixteen && 97 ≤ l && l ≤ 102 then some (l.toNat - 87) else none

end Base

/-- Digits read so far: their value without the ones not kept, the number of digits in it, the power of
the base to multiply it with, whether a digit not kept differs from zero, whether a point was read and
whether a digit was. -/
structure Mantissa where
  value : Nat := 0
  count : Nat := 0
  power : Int := 0
  inexact : Bool := false
  point : Bool := false
  started : Bool := false

namespace Mantissa

def push (base : Base) (m : Mantissa) (d : Nat) : Mantissa :=
  let m := { m with started := true }
  if m.count = 0 && d = 0 then if m.point then { m with power := m.power - 1 } else m
  else if m.count < base.kept then
    { m with value := m.value * base.radix + d, count := m.count + 1,
             power := if m.point then m.power - 1 else m.power }
  else
    { m with inexact := m.inexact || d != 0, power := if m.point then m.power else m.power + 1 }

/-- Reads digits, underscores and at most one point. -/
def read (base : Base) (m : Mantissa) : Bytes → Mantissa × Bytes
  | [] => (m, [])
  | b :: rest =>
    if b = 95 then read base m rest
    else if b = 46 then
      if m.point then (m, b :: rest) else read base { m with point := true } rest
    else match base.value? b with
      | some d => read base (m.push base d) rest
      | none => (m, b :: rest)

/-- The value with a digit one behind it for all that is not kept. -/
def sticky (base : Base) (m : Mantissa) : Nat × Int :=
  if m.inexact then (m.value * base.radix + 1, m.power - 1) else (m.value, m.power)

end Mantissa

/-! ## Exponents -/

/-- An exponent grows no more once it has reached this: the value is zero or too large by then. -/
def exponentCap : Nat := 10000

def readExponentDigits (e : Nat) : Bytes → Nat × Bytes
  | [] => (e, [])
  | b :: rest =>
    if Text.isDigit b then
      readExponentDigits (if e < exponentCap then e * 10 + digitValue b else e) rest
    else if b = 95 then readExponentDigits e rest
    else (e, b :: rest)

/-- Reads an exponent behind its mark: a sign, a digit, and then digits and underscores. -/
def readExponent (text : Bytes) : Option (Int × Bytes) :=
  let (negative, rest) := splitSign text
  match rest with
  | b :: _ =>
    if Text.isDigit b then
      let (e, rest) := readExponentDigits 0 rest
      some (if negative then -e else e, rest)
    else none
  | [] => none

/-- What follows the digits: an exponent with its mark, without which a hexadecimal number is none. -/
def readPower (base : Base) : Bytes → Option (Int × Bytes)
  | b :: rest => if toLower b = base.exponentMark then readExponent rest else none
  | [] => if base = .ten then some (0, []) else none

/-! ## Underscores -/

/-- What stands in front of a place in a numeral. -/
inductive Before where
  | nothing
  | digit
  | underscore
  | other
  deriving DecidableEq

/-- Every underscore stands between two digits. -/
def underscoresFit (base : Base) : Before → Bytes → Bool
  | seen, [] => seen != .underscore
  | seen, b :: rest =>
    if (base.value? b).isSome then underscoresFit base .digit rest
    else if b = 95 then seen == .digit && underscoresFit base .underscore rest
    else seen != .underscore && underscoresFit base .other rest

/-! ## Numbers -/

/-- A decimal that reaches ten to this power is too large. -/
def decimalTop : Int := 310

/-- A decimal below ten to this power is zero. -/
def decimalBottom : Int := -330

/-- The number nearest to `m * 10 ^ p`, where `m` has `count` digits, unless it is too large. -/
def ofDecimal (negative : Bool) (count m : Nat) (p : Int) : Option Binary64 :=
  if m = 0 || p + count < decimalBottom then some (Binary64.signed negative 0)
  else if decimalTop < p + count then none
  else
    let x := match p with
      | .ofNat p => Binary64.nearest negative (m * Nat.pow 10 p) 1
      | .negSucc p => Binary64.nearest negative m (Nat.pow 10 (p + 1))
    if x.isInfinite then none else some x

/-- The number nearest to `m * 2 ^ p`, unless it is too large. -/
def ofBinary (negative : Bool) (m : Nat) (p : Int) : Option Binary64 :=
  let x := Binary64.nearestScaled negative m p
  if x.isInfinite then none else some x

/-- A number in digits, the sign and the prefix of the base apart. -/
def readDigits (base : Base) (negative : Bool) (text : Bytes) : Option Binary64 :=
  let (m, rest) := ({} : Mantissa).read base text
  match readPower base rest with
  | some (e, []) =>
    let seen := if base = Base.ten then Before.nothing else .digit
    if m.started && underscoresFit base seen text then
      let (v, p) := m.sticky base
      match base with
      | .ten => ofDecimal negative m.count v (p + e)
      | .sixteen => ofBinary negative v (4 * p + e)
    else none
  | _ => none

/-- A number without its sign. -/
def readMagnitude (negative : Bool) : Bytes → Option Binary64
  | 48 :: x :: d :: digits =>
    if toLower x = 120 then readDigits .sixteen negative (d :: digits)
    else readDigits .ten negative (48 :: x :: d :: digits)
  | text => readDigits .ten negative text

/-- The number that a numeral stands for. Infinity and the value that is not a number are spelled out,
in letters of either case; the latter takes no sign. -/
def readBinary64 (text : Bytes) : Option Binary64 :=
  let (negative, rest) := splitSign text
  let name := rest.map toLower
  if name = txt "inf" || name = txt "infinity" then some (Binary64.infinity negative)
  else if text.map toLower = txt "nan" then some Binary64.notANumber
  else readMagnitude negative rest

end RegCode.Numeral
