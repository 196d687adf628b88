import RegCode.Text.Basic

/-!
# Notices

What a compilation tells on the way: the declarations it skips and, at the end, the size of the result.
-/

namespace RegCode

inductive Level where
  | debug
  | warn
  deriving DecidableEq, Repr

def Level.name : Level → Bytes
  | debug => txt "DEBUG"
  | warn => txt "WARN"

inductive NoticeValue where
  | int (n : Int)
  | text (s : Bytes)
  deriving DecidableEq, Repr

inductive Notice where
  | skippedFunction (name : Bytes) (line : Int)
  | skippedReturn (line : Int)
  | compiled (instructions consts registers live names : Nat)
  /-- A source of some bytes is about to be compiled. -/
  | compiling (source : Bytes) (size : Nat)
  deriving DecidableEq, Repr

namespace Notice

def level : Notice → Level
  | skippedFunction .. | skippedReturn _ => .warn
  | compiled .. | compiling .. => .debug

def message : Notice → Bytes
  | skippedFunction .. => txt "skipping function declaration"
  | skippedReturn _ => txt "skipping return statement"
  | compiled .. => txt "compiled program"
  | compiling .. => txt "compiling"

def fields : Notice → List (Bytes × NoticeValue)
  | skippedFunction name line => [(txt "name", .text name), (txt "line", .int line)]
  | skippedReturn line => [(txt "line", .int line)]
  | compiled instructions consts registers live names =>
    [(txt "instructions", .int instructions), (txt "constants", .int consts),
     (txt "registers", .int registers), (txt "live", .int live), (txt "variables", .int names)]
  | compiling source size => [(txt "source", .text source), (txt "bytes", .int size)]

end Notice

end RegCode
