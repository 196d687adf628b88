import RegCode.Number.Binary64
import RegCode.Text.Basic

/-!
# The shortest decimal

`Binary64.shortest` finds the decimal with the fewest digits that rounds to a given number, of several
such the nearest, and of two equally near the one with an even last digit. The reals that round to
`m * 2 ^ q` form an interval around it, which holds its ends if `m` is even. For one digit, two digits
and so on the two neighbours of the number on the grid of such decimals are tested against that interval;
the first grid with a hit wins.

`Binary64.text` writes the decimal plainly or with an exponent.
-/

namespace RegCode

/-- The value `digits * 10 ^ exponent`. -/
structure Decimal where
  digits : Nat
  exponent : Int
  deriving DecidableEq, Repr

namespace Decimal

/-- Drops zeros at the end of the digits; `fuel` bounds their number. -/
def trimWithin : Nat → Decimal → Decimal
  | 0, d => d
  | fuel + 1, d =>
    if d.digits % 10 = 0 then trimWithin fuel ⟨d.digits / 10, d.exponent + 1⟩ else d

/-- Numbers and grids over a common denominator: `value`, its interval and the denominator. -/
structure Interval where
  low : Nat
  value : Nat
  high : Nat
  unit : Nat
  closed : Bool

namespace Interval

/-- The interval with the point `c` of the grid `10 ^ g` over the same denominator. -/
def onGrid (i : Interval) (g : Int) : Interval :=
  match g with
  | .ofNat g => { i with unit := i.unit * Nat.pow 10 g }
  | .negSucc g =>
    let p := Nat.pow 10 (g + 1)
    { i with low := i.low * p, value := i.value * p, high := i.high * p }

def holds (i : Interval) (c : Nat) : Bool :=
  if i.closed then i.low ≤ c * i.unit && c * i.unit ≤ i.high
  else i.low < c * i.unit && c * i.unit < i.high

/-- Of the two neighbours of the value in units, the one that lies in the interval; of both the nearer,
and half way the even one. -/
def hit (i : Interval) : Option Nat :=
  let c := i.value / i.unit
  let twice := 2 * i.value
  let middle := (2 * c + 1) * i.unit
  match i.holds c, i.holds (c + 1) with
  | true, true => some (if twice < middle then c else if middle < twice then c + 1 else c + c % 2)
  | true, false => some c
  | false, true => some (c + 1)
  | false, false => none

/-- Tries the grids from `10 ^ g` on to finer ones. -/
def search (i : Interval) : Nat → Int → Decimal
  | 0, g => ⟨(i.onGrid g).value / (i.onGrid g).unit, g⟩
  | fuel + 1, g =>
    match (i.onGrid g).hit with
    | some c => trimWithin 17 ⟨c, g⟩
    | none => search i fuel (g - 1)

/-- Whether the value is at least `10 ^ x`. -/
def reaches (i : Interval) (x : Int) : Bool := (i.onGrid x).unit ≤ (i.onGrid x).value

/-- The exponent of the power of ten at or below the value. -/
def floorLog10 (i : Interval) : Int :=
  let x := (Binary64.floorLog2 i.value i.unit * 30103).fdiv 100000
  if i.reaches (x + 1) then x + 1 else if i.reaches x then x else x - 1

end Interval

end Decimal

namespace Binary64

/-- The reals that round to a finite number other than zero. The gap below a power of two is half as
wide as the one above it. -/
def interval (x : Binary64) : Decimal.Interval :=
  let m := x.significand
  let below := if m = hiddenBit ∧ 1 < x.exponentField then 1 else 2
  match x.scale - 2 with
  | .ofNat e =>
    let p := Nat.pow 2 e
    ⟨(4 * m - below) * p, 4 * m * p, (4 * m + 2) * p, 1, m % 2 = 0⟩
  | .negSucc e => ⟨4 * m - below, 4 * m, 4 * m + 2, Nat.pow 2 (e + 1), m % 2 = 0⟩

/-- The shortest decimal that rounds to the magnitude of a finite number. -/
def shortest (x : Binary64) : Decimal :=
  if x.isZero then ⟨0, 0⟩ else x.interval.search 17 x.interval.floorLog10

/-! ## Writing -/

/-- How a decimal is laid out: it is written plainly if the exponent of its first digit is at least
`plainFrom` and below `plainBelow`, and with an exponent of at least `exponentWidth` digits otherwise. -/
structure Layout where
  plainFrom : Int
  plainBelow : Int
  exponentWidth : Nat

/-- Up to six digits before the point and up to four zeros behind it are written out; an exponent has a
sign and two digits. -/
def layout : Layout := ⟨-4, 6, 2⟩

def withPoint (rest : Bytes) : Bytes := if rest.isEmpty then [] else 46 :: rest

/-- Digits of which the first has the exponent `x`, written plainly. -/
def plain (digits : Bytes) (x : Int) : Bytes :=
  match x with
  | .ofNat x =>
    let whole := digits.take (x + 1)
    whole ++ List.replicate (x + 1 - whole.length) 48 ++ withPoint (digits.drop (x + 1))
  | .negSucc x => 48 :: withPoint (List.replicate x 48 ++ digits)

/-- Digits of which the first has the exponent `x`, written with the exponent behind them. -/
def scientific (l : Layout) (digits : Bytes) (x : Int) : Bytes :=
  let sign : UInt8 := if x < 0 then 45 else 43
  digits.take 1 ++ withPoint (digits.drop 1) ++
    101 :: sign :: Text.padLeft l.exponentWidth 48 (Text.decimal x.natAbs)

def writeDecimal (l : Layout) (d : Decimal) : Bytes :=
  let digits := Text.decimal d.digits
  let x := d.exponent + digits.length - 1
  if l.plainFrom ≤ x ∧ x < l.plainBelow then plain digits x else scientific l digits x

/-- The number with the fewest digits that read back as it. -/
def text (x : Binary64) : Bytes :=
  if x.isNaN then txt "NaN"
  else if x.isInfinite then if x.isNegative then txt "-Inf" else txt "+Inf"
  else
    let unsigned := writeDecimal layout x.shortest
    if x.isNegative then 45 :: unsigned else unsigned

end Binary64

end RegCode
