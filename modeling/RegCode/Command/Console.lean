import RegCode.Diagnostic
import RegCode.Log

/-!
# What a command writes

Text goes to the output, to the error output or to the terminal that a prompt is shown on. Pieces are kept
in the order they were written.
-/

namespace RegCode.Command

/-- The pieces written so far, last one first. -/
structure Console where
  out : List Bytes := []
  err : List Bytes := []
  terminal : List Bytes := []

namespace Console

def print (c : Console) (b : Bytes) : Console := { c with out := b :: c.out }

def printLine (c : Console) (b : Bytes) : Console := c.print (b ++ txt "\n")

def complain (c : Console) (b : Bytes) : Console := { c with err := b :: c.err }

def prompt (c : Console) (b : Bytes) : Console := { c with terminal := b :: c.terminal }

def joined (pieces : List Bytes) : Bytes := pieces.reverse.flatten

end Console

structure Result where
  exit : Nat
  console : Console
  disk : Disk

namespace Result

def out (r : Result) : Bytes := Console.joined r.console.out

def err (r : Result) : Bytes := Console.joined r.console.err

def terminal (r : Result) : Bytes := Console.joined r.console.terminal

end Result

/-- A command ends with an error that has not been shown yet. -/
def failed (c : Console) (style : Style) (message : Bytes) (d : Disk) : Result :=
  ⟨1, c.complain (style.inline .label (txt "error:") ++ txt " " ++ message ++ txt "\n"), d⟩

end RegCode.Command
