import RegCode.Image

/-!
# The bytes of an image

All numbers have their highest byte first: a magic number, the version, the number of constants and the
constants, the number of functions and the functions. A constant is a tag and its payload, and the bytes of
a string stand behind their number. Reading accepts exactly this and nothing behind it.
-/

namespace RegCode

def bytes32 (w : UInt32) : Bytes :=
  [UInt8.ofNat (w.toNat / 0x1000000), UInt8.ofNat (w.toNat / 0x10000), UInt8.ofNat (w.toNat / 0x100),
   UInt8.ofNat w.toNat]

def bytes64 (w : UInt64) : Bytes :=
  bytes32 (UInt32.ofNat (w.toNat / 0x100000000)) ++ bytes32 (UInt32.ofNat w.toNat)

def numberOf (b : Bytes) : Nat := b.foldl (fun n x => n * 256 + x.toNat) 0

namespace Image

def magic : UInt32 := 0x45564D00

def tagInt : UInt8 := 1

def tagFloat : UInt8 := 2

def tagStr : UInt8 := 3

/-! ## Writing -/

def constBytes : Const → Bytes
  | .int v => tagInt :: bytes64 v.toUInt64
  | .float x => tagFloat :: bytes64 x.bits
  | .str s => tagStr :: (bytes32 (UInt32.ofNat s.length) ++ s)

def functionBytes (f : Function) : Bytes :=
  bytes32 f.nameIndex ++ [f.argCount, f.registerCount] ++ bytes32 (UInt32.ofNat f.code.length) ++
    f.code.flatMap fun i => bytes32 i.word

def encode (i : Image) : Bytes :=
  bytes32 magic ++ bytes32 i.version ++ bytes32 (UInt32.ofNat i.consts.length) ++
    i.consts.flatMap constBytes ++ bytes32 (UInt32.ofNat i.functions.length) ++
    i.functions.flatMap functionBytes

/-! ## Reading -/

inductive Fault where
  | truncated (need offset have' : Nat)
  | badMagic (found : UInt32)
  | badVersion (found : UInt32)
  | unknownTag (index : Nat) (tag : UInt8) (offset : Nat)
  | trailing (count offset : Nat)
  deriving DecidableEq, Repr

def Fault.message : Fault → Bytes
  | truncated need offset have' =>
    txt "artifact: artifact truncated: need " ++ Text.decimal need ++ txt " bytes at offset " ++
      Text.decimal offset ++ txt ", have " ++ Text.decimal have'
  | badMagic found =>
    txt "artifact: not an artifact: bad magic (0x" ++ Text.hexUpper 8 found.toNat ++ txt ")"
  | badVersion found =>
    txt "artifact: unsupported artifact version " ++ Text.decimal found.toNat
  | unknownTag index tag offset =>
    txt "artifact: constant " ++ Text.decimal index ++ txt ": unknown tag " ++
      Text.decimal tag.toNat ++ txt " at offset " ++ Text.decimal offset
  | trailing count offset =>
    txt "artifact: " ++ Text.decimal count ++ txt " trailing bytes after offset " ++
      Text.decimal offset

/-- What is left of some bytes, and how many stood before. -/
structure Remainder where
  offset : Nat
  rest : Bytes

abbrev Decoder (α : Type) := StateT Remainder (Except Fault) α

namespace Decoder

def bytes (n : Nat) : Decoder Bytes := fun r =>
  let b := r.rest.take n
  if b.length = n then .ok (b, ⟨r.offset + n, r.rest.drop n⟩)
  else .error (.truncated n r.offset b.length)

def byte : Decoder UInt8 := do return UInt8.ofNat (numberOf (← bytes 1))

def word : Decoder UInt32 := do return UInt32.ofNat (numberOf (← bytes 4))

def doubleWord : Decoder UInt64 := do return UInt64.ofNat (numberOf (← bytes 8))

/-- The items from `index` on, of which `n` are left, behind `acc`, which is held last one first. -/
def manyOnto {α : Type} (item : Nat → Decoder α) (acc : List α) (index : Nat) :
    Nat → Decoder (List α)
  | 0 => return acc.reverse
  | n + 1 => do
    let a ← item index
    manyOnto item (a :: acc) (index + 1) n

def counted {α : Type} (item : Nat → Decoder α) : Decoder (List α) := do
  manyOnto item [] 0 (← word).toNat

/-- The constant with a given place in the pool. -/
def const (index : Nat) : Decoder Const := do
  let tag ← byte
  if tag = tagInt then return .int (← doubleWord).toInt64
  else if tag = tagFloat then return .float ⟨← doubleWord⟩
  else if tag = tagStr then return .str (← bytes (← word).toNat)
  else throw (.unknownTag index tag ((← get).offset - 1))

def function : Decoder Function := do
  let nameIndex ← word
  let argCount ← byte
  let registerCount ← byte
  let code ← counted fun _ => do return ⟨← word⟩
  return ⟨nameIndex, argCount, registerCount, code⟩

def atEnd : Decoder Unit := do
  let r ← get
  if !r.rest.isEmpty then throw (.trailing r.rest.length r.offset)

def image : Decoder Image := do
  let m ← word
  if m ≠ magic then throw (.badMagic m)
  let version ← word
  if version ≠ currentVersion then throw (.badVersion version)
  let consts ← counted const
  let functions ← counted fun _ => function
  atEnd
  return ⟨version, consts, functions⟩

end Decoder

def decode (b : Bytes) : Except Fault Image := (Decoder.image.run ⟨0, b⟩).map (·.1)

end Image

def Chunk.encode (c : Chunk) : Except EncodeError Bytes := (Image.ofChunk c).map (·.encode)

end RegCode
