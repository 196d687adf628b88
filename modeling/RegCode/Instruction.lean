import RegCode.Text.Basic

/-!
# Instructions

An instruction is one word of 32 bits: from the top down an opcode and three operand bytes `a`, `b` and
`c`. Jumps and constant loads read `b` and `c` together as one field of 16 bits, jumps as a signed
displacement from their own place.
-/

namespace RegCode

inductive Comparison where
  | lt
  | le
  | gt
  | ge
  | eq
  | ne
  deriving DecidableEq, Repr

namespace Comparison

def all : List Comparison := [lt, le, gt, ge, eq, ne]

def name : Comparison → Bytes
  | lt => txt "lt"
  | le => txt "le"
  | gt => txt "gt"
  | ge => txt "ge"
  | eq => txt "eq"
  | ne => txt "ne"

def index : Comparison → UInt8
  | lt => 0
  | le => 1
  | gt => 2
  | ge => 3
  | eq => 4
  | ne => 5

def ofIndex? (i : UInt8) : Option Comparison := all.find? fun k => k.index == i

/-- The name of the comparison in a given place, and a question mark where there is none. -/
def nameAt (i : UInt8) : Bytes := ((ofIndex? i).map name).getD (txt "?")

end Comparison

inductive Op where
  /-- Stops the machine. -/
  | halt
  /-- Register `a` takes the constant `bx`. -/
  | loadK
  /-- Register `a` takes register `b`. -/
  | load
  /-- Register `a` takes the sum of `b` and `c`; the next three likewise. -/
  | add
  | sub
  | mul
  | div
  /-- Goes on `sbx` places from here. -/
  | jmp
  /-- Goes on `sbx` places from here if register `a` is true. -/
  | jmpIf
  /-- Goes on `sbx` places from here if register `a` is not true. -/
  | jmpIfNot
  /-- Register `a` takes whether `b` and `c` are so related. -/
  | compare (k : Comparison)
  | call
  | ret
  /-- Prints register `a`. -/
  | print
  deriving DecidableEq, Repr

namespace Op

/-- The opcode of the comparison in a given place; the places go round after 256. -/
def compareCode (index : UInt8) : UInt8 := 0x23 + index

def code : Op → UInt8
  | halt => 0x00
  | loadK => 0x01
  | load => 0x02
  | add => 0x10
  | sub => 0x11
  | mul => 0x12
  | div => 0x13
  | jmp => 0x20
  | jmpIf => 0x21
  | jmpIfNot => 0x22
  | compare k => compareCode k.index
  | call => 0x30
  | ret => 0x31
  | print => 0x40

def all : List Op :=
  [halt, loadK, load, add, sub, mul, div, jmp, jmpIf, jmpIfNot, call, ret, print] ++
    Comparison.all.map compare

def ofCode? (code : UInt8) : Option Op := all.find? fun op => op.code == code

def isJump : Op → Bool
  | jmp | jmpIf | jmpIfNot => true
  | _ => false

def comparison? (code : UInt8) : Option Comparison :=
  match ofCode? code with
  | some (compare k) => some k
  | _ => none

def name : Op → Bytes
  | halt => txt "HALT"
  | loadK => txt "LOADK"
  | load => txt "LOAD"
  | add => txt "ADD"
  | sub => txt "SUB"
  | mul => txt "MUL"
  | div => txt "DIV"
  | jmp => txt "JMP"
  | jmpIf => txt "JMP_IF"
  | jmpIfNot => txt "JMP_IF_NOT"
  | compare k => txt "COMPARE." ++ k.name
  | call => txt "CALL"
  | ret => txt "RET"
  | print => txt "PRINT"

end Op

abbrev Register := UInt8

structure Instruction where
  word : UInt32
  deriving DecidableEq, Repr, Inhabited

namespace Instruction

def abx (op a : UInt8) (bx : UInt16) : Instruction :=
  ⟨UInt32.ofNat (op.toNat * 0x1000000 + a.toNat * 0x10000 + bx.toNat)⟩

def abc (op a b c : UInt8) : Instruction :=
  ⟨UInt32.ofNat (op.toNat * 0x1000000 + a.toNat * 0x10000 + b.toNat * 0x100 + c.toNat)⟩

def asbx (op a : UInt8) (sbx : Int16) : Instruction := abx op a sbx.toUInt16

def opcode (i : Instruction) : UInt8 := UInt8.ofNat (i.word.toNat / 0x1000000)

def a (i : Instruction) : UInt8 := UInt8.ofNat (i.word.toNat / 0x10000)

def b (i : Instruction) : UInt8 := UInt8.ofNat (i.word.toNat / 0x100)

def c (i : Instruction) : UInt8 := UInt8.ofNat i.word.toNat

def bx (i : Instruction) : UInt16 := UInt16.ofNat i.word.toNat

def sbx (i : Instruction) : Int16 := i.bx.toInt16

def op? (i : Instruction) : Option Op := Op.ofCode? i.opcode

def isJump (i : Instruction) : Bool := (i.op?.map Op.isJump).getD false

def withSbx (i : Instruction) (d : Int16) : Instruction :=
  ⟨UInt32.ofNat (i.word.toNat / 0x10000 * 0x10000 + d.toUInt16.toNat)⟩

end Instruction

end RegCode
