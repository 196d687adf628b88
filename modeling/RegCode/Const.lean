import RegCode.Number.Shortest
import RegCode.Text.Quoted

/-!
# Constants

The values that code can load are integers, floating-point numbers and strings. A pool put together by
hand may hold values of other types as well; narrow numbers among them have a constant that stands for
them in an image, the others have none.
-/

namespace RegCode

inductive Const where
  | int (v : Int64)
  | float (v : Binary64)
  | str (s : Bytes)
  deriving DecidableEq, Repr, Inhabited

namespace Const

/-- A finite number without point and exponent gets a point and a zero, so that it does not look like
an integer. -/
def renderFloat (x : Binary64) : Bytes :=
  let s := x.text
  if !x.isInfinite && !x.isNaN && !s.any (fun b => b == 46 || b == 101) then s ++ txt ".0" else s

def render : Const → Bytes
  | int v => Text.integer v.toInt
  | float x => renderFloat x
  | str s => Text.Quoted.quote s

def kindName : Const → Bytes
  | int _ => txt "int"
  | float _ => txt "float"
  | str _ => txt "string"

end Const

/-- The name of a type, which stands in one line. -/
structure TypeName where
  text : Bytes
  oneLine : Text.newline ∉ text
  deriving DecidableEq, Repr

inductive PoolValue where
  | const (k : Const)
  /-- An integer of the machine's own width. -/
  | word (v : Int64)
  | int32 (v : Int32)
  /-- A number of the 32-bit binary format, by its bits. -/
  | float32 (bits : UInt32)
  | uint8 (v : UInt8)
  | bool (v : Bool)
  | absent
  /-- A value of any other type. -/
  | other (type : TypeName)
  deriving DecidableEq, Repr, Inhabited

namespace PoolValue

def typeName : PoolValue → Bytes
  | const (.int _) => txt "int64"
  | const (.float _) => txt "float64"
  | const (.str _) => txt "string"
  | word _ => txt "int"
  | int32 _ => txt "int32"
  | float32 _ => txt "float32"
  | uint8 _ => txt "uint8"
  | bool _ => txt "bool"
  | absent => txt "<nil>"
  | other type => type.text

/-- The constant that stands for a value in an image. -/
def const? : PoolValue → Option Const
  | const k => some k
  | word v => some (.int v)
  | int32 v => some (.int v.toInt64)
  | float32 bits => some (.float (.ofWord32 bits))
  | uint8 _ | bool _ | absent | other _ => none

def render : PoolValue → Bytes
  | const k => k.render
  | v => txt "<unsupported " ++ v.typeName ++ txt ">"

def kindName : PoolValue → Bytes
  | const k => k.kindName
  | _ => txt "?"

end PoolValue

end RegCode
