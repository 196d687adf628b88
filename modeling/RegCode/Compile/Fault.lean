import RegCode.Chunk
import RegCode.Register
import RegCode.Token

/-!
# Why a program does not compile

Errors are in the program and have a position in it. A compilation can also come to a stop for reasons
that lie in the compiler's own bookkeeping or in a tree with gaps; these are kept apart, so that it can be
said that they do not happen.
-/

namespace RegCode

/-- The most constants that the field of a load can tell apart. -/
def maxConsts : Nat := 65536

inductive CompileFault where
  | undefinedVariable (name : Bytes)
  | unknownBinary (symbol : Bytes)
  | unknownUnary (symbol : Bytes)
  | tooManyRegisters
  | tooManyConsts
  | jumpTooFar (distance : Int)
  /-- A declaration that was given up by the parser, with its message. -/
  | badStatement (message : Bytes)
  deriving DecidableEq, Repr

inductive CompileErrorKind where
  | undefinedVariable
  | unknownOperator
  | tooManyRegisters
  | tooManyConsts
  | jumpTooFar
  | invalidStatement
  deriving DecidableEq, Repr

def CompileErrorKind.text : CompileErrorKind → Bytes
  | undefinedVariable => txt "undefined variable"
  | unknownOperator => txt "unknown operator"
  | tooManyRegisters => txt "too many registers"
  | tooManyConsts => txt "too many constants"
  | jumpTooFar => txt "jump too far"
  | invalidStatement => txt "invalid statement"

namespace CompileFault

def kind : CompileFault → CompileErrorKind
  | undefinedVariable _ => .undefinedVariable
  | unknownBinary _ | unknownUnary _ => .unknownOperator
  | tooManyRegisters => .tooManyRegisters
  | tooManyConsts => .tooManyConsts
  | jumpTooFar _ => .jumpTooFar
  | badStatement _ => .invalidStatement

/-- The variable or operator that the fault is about, if it is about one. -/
def name : CompileFault → Bytes
  | undefinedVariable n | unknownBinary n | unknownUnary n => n
  | _ => []

def message : CompileFault → Bytes
  | undefinedVariable n => txt "undefined variable '" ++ n ++ txt "'"
  | unknownBinary s => txt "unknown binary operator '" ++ s ++ txt "'"
  | unknownUnary s => txt "unknown unary operator '" ++ s ++ txt "'"
  | tooManyRegisters =>
    txt "expression needs more than " ++ Text.decimal maxRegisters ++ txt " registers"
  | tooManyConsts => txt "more than " ++ Text.decimal maxConsts ++ txt " constants in one chunk"
  | jumpTooFar d => txt "jump of " ++ Text.integer d ++ txt " instructions does not fit in 16 bits"
  | badStatement m => txt "cannot compile statement that failed to parse: " ++ m

end CompileFault

structure CompileError where
  pos : Position
  fault : CompileFault
  deriving DecidableEq, Repr

namespace CompileError

def message (e : CompileError) : Bytes := e.fault.message

def text (e : CompileError) : Bytes := e.pos.tag ++ txt " " ++ e.message

end CompileError

inductive CompileFailure where
  | error (e : CompileError)
  /-- The compiler has had its program already. -/
  | alreadyUsed
  /-- A register was given back out of turn. -/
  | register (f : FreeFault)
  /-- A jump to be completed was not there. -/
  | jump (f : Chunk.PatchFault)
  /-- The tree has a gap where code is needed. -/
  | gap
  deriving DecidableEq, Repr

end RegCode
