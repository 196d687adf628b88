import RegCode.Instruction

/-!
# Registers in use

Registers are handed out in the manner of a stack: those in use are always the first ones, and only the
last one handed out can be given back.
-/

namespace RegCode

def maxRegisters : Nat := 256

/-- How many registers are in use, and the most that ever were. -/
structure RegisterStack where
  live : Nat := 0
  high : Nat := 0
  deriving DecidableEq, Repr

/-- A register given back out of turn, and the number of registers in use then. -/
structure FreeFault where
  register : Register
  live : Nat
  deriving DecidableEq, Repr

def FreeFault.message (f : FreeFault) : Bytes :=
  txt "regalloc: free of r" ++ Text.decimal f.register.toNat ++ txt " out of order (top is r" ++
    Text.integer ((f.live : Int) - 1) ++ txt ")"

namespace RegisterStack

def alloc (s : RegisterStack) : Option (Register × RegisterStack) :=
  if s.live < maxRegisters then
    some (UInt8.ofNat s.live, ⟨s.live + 1, max s.high (s.live + 1)⟩)
  else none

def free (s : RegisterStack) (r : Register) : Except FreeFault RegisterStack :=
  if r.toNat + 1 = s.live then .ok ⟨s.live - 1, s.high⟩ else .error ⟨r, s.live⟩

end RegisterStack

end RegCode
