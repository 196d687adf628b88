import RegCode.Text.Basic

/-!
# Scalar values in bytes

`decode` reads the scalar value at the front of a text. It refuses continuation bytes that stand
alone, sequences that end early, forms longer than needed, surrogates and values above U+10FFFF.
Where it refuses, the first byte counts as one stray cell, and reading goes on behind it.
-/

namespace RegCode.Utf8

/-- One cell of a text: a scalar value, or a byte that belongs to none. -/
inductive Cell where
  | scalar (c : Char)
  | stray (b : UInt8)
  deriving DecidableEq, Repr

def Cell.bytes : Cell → Bytes
  | .scalar c => String.utf8EncodeChar c
  | .stray b => [b]

def isContinuation (b : UInt8) : Bool := 0x80 ≤ b && b < 0xC0

/-- The value of a sequence of which `value` is read and `more` continuation bytes are to come. -/
def continued (value : Nat) : Nat → Bytes → Option Nat
  | 0, _ => some value
  | more + 1, b :: rest =>
    if isContinuation b then continued (value * 64 + (b.toNat - 0x80)) more rest else none
  | _ + 1, [] => none

/-- How many bytes follow a lead byte, and the least value that needs so many. -/
def announced (lead : UInt8) : Option (Nat × Nat) :=
  if lead < 0x80 then some (0, 0)
  else if lead < 0xC2 then none
  else if lead < 0xE0 then some (1, 0x80)
  else if lead < 0xF0 then some (2, 0x800)
  else if lead < 0xF8 then some (3, 0x10000)
  else none

/-- What a lead byte adds to the value: the bits that do not tell the length. -/
def leadBits (lead : UInt8) (more : Nat) : Nat :=
  match more with
  | 0 => lead.toNat
  | 1 => lead.toNat - 0xC0
  | 2 => lead.toNat - 0xE0
  | _ => lead.toNat - 0xF0

/-- The scalar value at the front and the number of bytes behind its first. -/
def decode : Bytes → Option (Char × Nat)
  | [] => none
  | lead :: rest =>
    match announced lead with
    | none => none
    | some (more, least) =>
      match continued (leadBits lead more) more rest with
      | none => none
      | some v => if h : least ≤ v ∧ v.isValidChar then some (Char.ofNatAux v h.2, more) else none

/-- The cells of a text, put in front of `acc` in reverse. -/
def cellsOnto (acc : List Cell) : Bytes → List Cell
  | [] => acc
  | b :: rest =>
    match decode (b :: rest) with
    | some (c, more) => cellsOnto (.scalar c :: acc) (rest.drop more)
    | none => cellsOnto (.stray b :: acc) rest
termination_by text => text.length
decreasing_by all_goals simp only [List.length_cons, List.length_drop]; omega

def cells (text : Bytes) : List Cell := (cellsOnto [] text).reverse

/-- No byte of the text is stray. -/
def valid (text : Bytes) : Bool :=
  (cellsOnto [] text).all fun
    | .scalar _ => true
    | .stray _ => false

end RegCode.Utf8
