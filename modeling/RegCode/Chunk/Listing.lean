import RegCode.Chunk

/-!
# Listings

The readable form of a chunk: a header and a line for each instruction, with its index, its source line,
its name and its operands. Opcodes without a meaning are shown by their word. A second section lists the
pool of constants.
-/

namespace RegCode

namespace Chunk

def registerName (r : UInt8) : Bytes := txt "r" ++ Text.decimal r.toNat

def operandList (operands : List Bytes) : Bytes := Text.join (txt ", ") operands

def jumpText (index : Nat) (d : Int16) : Bytes :=
  Text.signed d.toInt ++ txt " ; -> " ++ Text.zeroPadded 4 (index + d.toInt)

def constRef (c : Chunk) (k : Nat) : Bytes :=
  match c.consts[k]? with
  | some v => v.render
  | none => txt "<invalid>"

/-- The operands of the instruction `i` at `index`, as far as the operation has any. -/
def operands (c : Chunk) (index : Nat) (i : Instruction) : Op → Bytes
  | .halt => []
  | .loadK =>
    let k := Text.decimal i.bx.toNat
    operandList [registerName i.a, k] ++ txt " ; const[" ++ k ++ txt "]=" ++ c.constRef i.bx.toNat
  | .load => operandList [registerName i.a, registerName i.b]
  | .add | .sub | .mul | .div | .compare _ =>
    operandList [registerName i.a, registerName i.b, registerName i.c]
  | .jmp => jumpText index i.sbx
  | .jmpIf | .jmpIfNot => operandList [registerName i.a, jumpText index i.sbx]
  | .call => operandList [registerName i.a, registerName i.b, Text.decimal i.c.toNat]
  | .ret | .print => registerName i.a

def mnemonic (c : Chunk) (index : Nat) (i : Instruction) : Bytes × Bytes :=
  match i.op? with
  | some op => (op.name, c.operands index i op)
  | none =>
    (txt "UNKNOWN 0x" ++ Text.hexUpper 2 i.opcode.toNat,
      txt "; raw=0x" ++ Text.hexUpper 8 i.word.toNat)

/-- A source line, and a dash where it is not known. -/
def lineText (line : Int) : Bytes := if 0 < line then Text.integer line else txt "-"

/-- The line of the instruction `i` at `index`, which comes from the source line `line`. -/
def instructionText (c : Chunk) (line : Int) (index : Nat) (i : Instruction) : Bytes :=
  let (name, operands) := c.mnemonic index i
  Text.zeroPadded 4 index ++ txt " " ++ Text.padLeft 4 32 (lineText line) ++ txt " " ++
    Text.padRight 12 name ++ (if operands.isEmpty then [] else txt " " ++ operands) ++ txt "\n"

def headerText (c : Chunk) (name : Bytes) : Bytes :=
  txt "func " ++ (if name.isEmpty then txt "<anon>" else name) ++
    txt " (consts=" ++ Text.decimal c.consts.size ++ txt ", registers=" ++ Text.integer c.registers ++
    txt ", instructions=" ++ Text.decimal c.code.size ++ txt ")\n"

/-- The lines of the instructions from `index` on, behind `acc`, which is held last one first. What comes
before `index` is on `line` at last, and `entries` is the rest of the table. -/
def instructionsOnto (c : Chunk) (acc : List Bytes) (index : Nat) (line : Int)
    (entries : List LineEntry) : List Instruction → List Bytes
  | [] => acc.reverse
  | i :: rest =>
    let (line, entries) := scanLine index line entries
    c.instructionsOnto (c.instructionText line index i :: acc) (index + 1) line entries rest

def codeSection (c : Chunk) (name : Bytes) : Bytes :=
  c.headerText name ++ (c.instructionsOnto [] 0 0 c.lines.toList c.code.toList).flatten

def poolSection (c : Chunk) : Bytes :=
  txt "constants (" ++ Text.decimal c.consts.size ++ txt ")\n" ++
    c.consts.toList.zipIdx.flatMap fun (k, index) =>
      Text.zeroPadded 4 index ++ txt " " ++ Text.padRight 8 k.kindName ++ txt " " ++ k.render ++
        txt "\n"

def listing (c : Chunk) : Bytes := c.codeSection (txt "main")

end Chunk

/-- A sheet that sections are written to, with a blank line between each and the next. -/
structure Sheet where
  started : Bool := false

namespace Sheet

/-- What is written for a section, and the sheet behind it. -/
def add (s : Sheet) (body : Bytes) : Bytes × Sheet :=
  (if s.started then txt "\n" ++ body else body, ⟨true⟩)

end Sheet

def Chunk.fullListing (c : Chunk) : Bytes :=
  let (code, s) := Sheet.add {} (c.codeSection (txt "main"))
  code ++ (s.add c.poolSection).1

end RegCode
