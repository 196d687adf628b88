/-!
# Numbers of 64 bits

A `Binary64` is a word of 64 bits in the binary interchange format: a sign, eleven bits of exponent and
52 bits of fraction. It is kept as a word so that every bit survives, those of a value that is not a
number included. Arithmetic is exact on integers and rounds once, by `nearest`: to the nearest value,
and half way between two of them to the one with an even last bit.
-/

namespace RegCode

/-- A word read as a number of the 64-bit binary format. -/
structure Binary64 where
  bits : UInt64
  deriving DecidableEq, Repr, Inhabited

namespace Binary64

def ofWord (n : Nat) : Binary64 := ⟨UInt64.ofNat n⟩

def word (x : Binary64) : Nat := x.bits.toNat

/-! ## Fields -/

def signBit : Nat := 0x8000000000000000

/-- The lowest bit of the exponent, one above the fraction. The significand of most numbers has it too,
though it is not stored. -/
def hiddenBit : Nat := 0x10000000000000

def isNegative (x : Binary64) : Bool := signBit ≤ x.word

def magnitude (x : Binary64) : Nat := x.word % signBit

def exponentField (x : Binary64) : Nat := x.magnitude / hiddenBit

def fraction (x : Binary64) : Nat := x.word % hiddenBit

/-- The word of the infinities without the sign. All words above it are not numbers. -/
def infiniteWord : Nat := 0x7FF0000000000000

def isNaN (x : Binary64) : Bool := infiniteWord < x.magnitude

def isInfinite (x : Binary64) : Bool := x.magnitude == infiniteWord

def isZero (x : Binary64) : Bool := x.magnitude == 0

/-- The integer `m` of the value `m * 2 ^ q` of a finite number, `q` being its `scale`. -/
def significand (x : Binary64) : Nat :=
  if x.exponentField = 0 then x.fraction else hiddenBit + x.fraction

def scale (x : Binary64) : Int := (max x.exponentField 1 : Nat) - 1075

/-! ## Rounding -/

def signed (negative : Bool) (n : Nat) : Binary64 := ofWord (if negative then signBit + n else n)

def zero : Binary64 := ⟨0⟩

def infinity (negative : Bool) : Binary64 := signed negative infiniteWord

/-- The value of an operation that has none. -/
def undefined : Binary64 := ofWord 0xFFF8000000000000

/-- What a numeral that spells "not a number" stands for. -/
def notANumber : Binary64 := ofWord 0x7FF8000000000001

/-- The quotient rounded to the nearest integer, a half to the even one. -/
def roundDiv (num den : Nat) : Nat :=
  let k := num / den
  let r := num % den
  if 2 * r < den then k else if den < 2 * r then k + 1 else k + k % 2

/-- `num * 2 ^ e` and `den`, or `num` and `den * 2 ^ (-e)`, whichever holds integers only. -/
def scaleBy (e : Int) (num den : Nat) : Nat × Nat :=
  match e with
  | .ofNat e => (num * Nat.pow 2 e, den)
  | .negSucc e => (num, den * Nat.pow 2 (e + 1))

/-- The exponent of the power of two at or below a positive quotient. -/
def floorLog2 (num den : Nat) : Int :=
  let e : Int := (num.log2 : Int) - den.log2
  let (n, d) := scaleBy (-e) num den
  if d ≤ n then e else e - 1

def nearest (negative : Bool) (num den : Nat) : Binary64 :=
  if num = 0 then signed negative 0
  else
    let q := max (floorLog2 num den - 52) (-1074)
    let (n, d) := scaleBy (-q) num den
    let word := (q + 1074).toNat * hiddenBit + roundDiv n d
    signed negative (min word infiniteWord)

def nearestScaled (negative : Bool) (m : Nat) (q : Int) : Binary64 :=
  let (n, d) := scaleBy q m 1
  nearest negative n d

def ofInt (i : Int) : Binary64 := nearest (i < 0) i.natAbs 1

/-! ## Arithmetic -/

def neg (x : Binary64) : Binary64 := ⟨x.bits ^^^ 0x8000000000000000⟩

/-- A value that is not a number, made quiet. -/
def quiet (x : Binary64) : Binary64 := ⟨x.bits ||| 0x0008000000000000⟩

/-- The result of an operation of which an operand is not a number: the first such operand. -/
def propagate (x y : Binary64) (result : Binary64) : Binary64 :=
  if x.isNaN then x.quiet else if y.isNaN then y.quiet else result

/-- The finite number as an integer multiple of `2 ^ q`, for a `q` not above its scale. -/
def multipleOf (x : Binary64) (q : Int) : Int :=
  let n := x.significand * Nat.pow 2 (x.scale - q).toNat
  if x.isNegative then -(n : Int) else n

/-- A sum of zero is negative only if both terms are negative zeros. -/
def add (x y : Binary64) : Binary64 :=
  propagate x y <|
    if x.isInfinite then
      if y.isInfinite && x.isNegative != y.isNegative then undefined else x
    else if y.isInfinite then y
    else
      let q := min x.scale y.scale
      let sum := x.multipleOf q + y.multipleOf q
      if sum = 0 then signed (x.isNegative && y.isNegative) 0
      else nearestScaled (sum < 0) sum.natAbs q

def sub (x y : Binary64) : Binary64 := propagate x y (add x y.neg)

def mul (x y : Binary64) : Binary64 :=
  let negative := x.isNegative != y.isNegative
  propagate x y <|
    if x.isInfinite || y.isInfinite then
      if x.isZero || y.isZero then undefined else infinity negative
    else nearestScaled negative (x.significand * y.significand) (x.scale + y.scale)

def div (x y : Binary64) : Binary64 :=
  let negative := x.isNegative != y.isNegative
  propagate x y <|
    if x.isInfinite then if y.isInfinite then undefined else infinity negative
    else if y.isInfinite then signed negative 0
    else if y.isZero then if x.isZero then undefined else infinity negative
    else
      let (n, d) := scaleBy (x.scale - y.scale) x.significand y.significand
      nearest negative n d

/-! ## Numbers of 32 bits -/

/-- The number that a word of the 32-bit format stands for. A value that is not a number becomes quiet
and keeps its fraction in the upper bits. -/
def ofWord32 (w : UInt32) : Binary64 :=
  let negative := 0x80000000 ≤ w.toNat
  let field : Nat := w.toNat / 0x800000 % 0x100
  let fraction := w.toNat % 0x800000
  if field = 255 then
    if fraction = 0 then infinity negative
    else (signed negative (infiniteWord + fraction * 0x20000000)).quiet
  else if field = 0 then nearestScaled negative fraction (-149)
  else nearestScaled negative (0x800000 + fraction) ((field : Int) - 150)

end Binary64

end RegCode
