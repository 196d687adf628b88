import RegCode.Const
import RegCode.Instruction

/-!
# Chunks

A chunk is code under construction: instructions, the pool of constants they load, and a table of source
lines. The table has an entry only where the line changes, so the line of an instruction is that of the
last entry at or before it.
-/

namespace RegCode

/-- From this instruction on the code comes from this source line. -/
structure LineEntry where
  offset : Nat
  line : Int
  deriving DecidableEq, Repr

structure Chunk where
  code : Array Instruction := #[]
  consts : Array PoolValue := #[]
  lines : Array LineEntry := #[]
  /-- The most registers in use at a time; a chunk put together by hand may say otherwise. -/
  registers : Int := 0
  deriving DecidableEq, Repr

namespace Chunk

/-- Whether an instruction written for `line` begins a new entry of the table. A line that is not
positive is not known and never does. -/
def startsLine (c : Chunk) (line : Int) : Bool :=
  0 < line && c.lines.back?.all (·.line != line)

def write (c : Chunk) (i : Instruction) (line : Int) : Chunk :=
  if c.startsLine line then
    let offset := c.code.size
    { c with code := c.code.push i, lines := c.lines.push ⟨offset, line⟩ }
  else { c with code := c.code.push i }

/-- Appends a constant. Equal constants are not shared. -/
def addConst (c : Chunk) (v : PoolValue) : Chunk := { c with consts := c.consts.push v }

inductive PatchFault where
  | outside
  | notJump (opcode : UInt8) (index : Nat)
  deriving DecidableEq, Repr

/-- What is said of a fault; nothing of a place outside the code. -/
def PatchFault.message : PatchFault → Option Bytes
  | outside => none
  | notJump opcode index =>
    some (txt "bytecode: patch of non-jump opcode 0x" ++ Text.hexUpper 2 opcode.toNat ++ txt " at " ++
      Text.decimal index)

/-- What keeps the instruction at `index` from getting another displacement. -/
def patchFault? (c : Chunk) (index : Nat) : Option PatchFault :=
  match c.code[index]? with
  | none => some .outside
  | some i => if i.isJump then none else some (.notJump i.opcode index)

def setSbx (c : Chunk) (index : Nat) (d : Int16) : Chunk :=
  { c with code := c.code.modify index (·.withSbx d) }

def patch (c : Chunk) (index : Nat) (d : Int16) : Except PatchFault Chunk :=
  match c.patchFault? index with
  | some f => .error f
  | none => .ok (c.setSbx index d)

/-- Looks up `offset` in entries to come, `line` being the line so far: the line there, and the entries
behind it. -/
def scanLine (offset : Int) (line : Int) : List LineEntry → Int × List LineEntry
  | [] => (line, [])
  | e :: rest => if offset < e.offset then (line, e :: rest) else scanLine offset e.line rest

/-- A look-up may go on from where one for an earlier place stopped. -/
theorem scanLine_scanLine {i j : Int} (h : i ≤ j) (line : Int) (entries : List LineEntry) :
    scanLine j (scanLine i line entries).1 (scanLine i line entries).2 = scanLine j line entries := by
  induction entries generalizing line with
  | nil => rfl
  | cons e rest ih =>
    by_cases hi : i < e.offset
    · simp only [scanLine, hi, ite_true]
    · have hj : ¬ j < e.offset := by omega
      simp only [scanLine, hi, hj, ite_false]
      exact ih e.line

/-- The source line of the instruction at `offset`; zero if it is not known. -/
def lineFor (c : Chunk) (offset : Int) : Int := (scanLine offset 0 c.lines.toList).1

end Chunk

end RegCode
