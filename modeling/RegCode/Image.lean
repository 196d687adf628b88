import RegCode.Chunk

/-!
# Images

An image is what a chunk is stored as: constants, and functions with their code. The number of registers
of a function is always declared as the most that its field can hold. Source lines are not stored.
-/

namespace RegCode

structure Function where
  nameIndex : UInt32
  argCount : UInt8
  registerCount : UInt8
  code : List Instruction
  deriving DecidableEq, Repr

structure Image where
  version : UInt32
  consts : List Const
  functions : List Function
  deriving DecidableEq, Repr

structure EncodeError where
  index : Nat
  value : PoolValue
  deriving DecidableEq, Repr

def EncodeError.message (e : EncodeError) : Bytes :=
  txt "constant " ++ Text.decimal e.index ++ txt ": unsupported constant type " ++ e.value.typeName

namespace Image

def currentVersion : UInt32 := 1

def declaredRegisters : UInt8 := 255

/-- The constants that stand for the values of a pool from `index` on, behind `acc`, which is held last one
first; or the first value that has none. -/
def storedOnto (acc : List Const) (index : Nat) : List PoolValue → Except EncodeError (List Const)
  | [] => .ok acc.reverse
  | v :: rest =>
    match v.const? with
    | some k => storedOnto (k :: acc) (index + 1) rest
    | none => .error ⟨index, v⟩

/-- The image of a chunk: its code as the only function. -/
def ofChunk (c : Chunk) : Except EncodeError Image :=
  (storedOnto [] 0 c.consts.toList).map fun consts =>
    ⟨currentVersion, consts, [⟨0, 0, declaredRegisters, c.code.toList⟩]⟩

/-- A chunk with the constants and the first function of an image. -/
def chunk (i : Image) : Chunk where
  code := (i.functions.head?.map (·.code.toArray)).getD #[]
  consts := (i.consts.map .const).toArray
  registers := (i.functions.head?.map fun f => (f.registerCount.toNat : Int)).getD 0

end Image

end RegCode
