import RegCode.Build
import RegCode.Style
import RegCode.Text.Utf8

/-!
# Diagnostics

Problems shown with the source line they are in and a caret below the place. The lines are those of the
source as it was given. In front of the caret stands a blank for every character before the place, and a
tab for every tab, so that the caret lines up in a terminal.
-/

namespace RegCode

/-- A problem at a place in a source, or at none if the line is zero. -/
structure Diagnostic where
  kind : Bytes
  pos : Position
  message : Bytes
  deriving DecidableEq, Repr

namespace Diagnostic

def syntaxError (pos : Position) (message : Bytes) : Diagnostic := ⟨txt "syntax error", pos, message⟩

def compileError (pos : Position) (message : Bytes) : Diagnostic := ⟨txt "compile error", pos, message⟩

def plain (message : Bytes) : Diagnostic := ⟨txt "error", {}, message⟩

def text (d : Diagnostic) : Bytes :=
  d.kind ++ txt ": " ++ (if d.pos.line = 0 then [] else d.pos.tag ++ txt " ") ++ d.message

/-- What stands in front of a caret at a column in bytes. A line that is shorter has it at its end. -/
def caretPad (line : Bytes) (column : Int) : Bytes :=
  (Utf8.cells (line.take (column - 1).toNat)).map fun c => if c.bytes = [9] then 9 else 32

/-- The line of a problem and the caret below it, if there is such a line. -/
def excerpt (style : Style) (lines : Array Bytes) (pos : Position) : Bytes :=
  if pos.line < 1 then []
  else
    match lines[pos.line.toNat - 1]? with
    | none => []
    | some line =>
      let line := Text.trimEnd (· == 13) line
      let number := Text.padLeft 4 32 (Text.integer pos.line)
      let gutter (b : Bytes) : Bytes := style.inline .gutter (b ++ txt " |") ++ txt " "
      gutter number ++ line ++ txt "\n" ++
        gutter (List.replicate number.length 32) ++ caretPad line pos.column ++
        style.inline .caret (txt "^") ++ txt "\n"

def print (style : Style) (lines : Array Bytes) (d : Diagnostic) : Bytes :=
  style.inline .label d.kind ++ txt ": " ++
    (if 0 < d.pos.line then style.inline .position d.pos.tag ++ txt " " else []) ++
    d.message ++ txt "\n" ++ excerpt style lines d.pos

end Diagnostic

def BuildError.diagnostics : BuildError → List Diagnostic
  | .parse errors => errors.map fun e => .syntaxError e.pos e.message
  | .compile (.error e) => [.compileError e.pos e.message]
  | e => [.plain e.message]

def sourceLines (source : Bytes) : Array Bytes := (Text.splitOn Text.newline source).toArray

def BuildError.report (e : BuildError) (style : Style) (source : Bytes) : Bytes :=
  let lines := sourceLines source
  e.diagnostics.flatMap (·.print style lines)

end RegCode
