import RegCode.Compile.Notice
import RegCode.Text.Blank
import RegCode.Text.Printable
import RegCode.Text.Quoted

/-!
# Logs

A notice as a line of text: names and values with equal signs between them. Values are quoted where they
would not be read back as one word.
-/

namespace RegCode

namespace Log

/-- Whether a part of a value is plain. A backslash is, though quoting would escape it. -/
def isPlain : Utf8.Cell → Bool
  | .stray _ => false
  | .scalar c =>
    if c.toNat < 128 then 32 < c.toNat && c != '"' && c != '='
    else c.toNat != 0xFFFD && !Text.isWhiteSpace c && Text.isPrintable c

def word (b : Bytes) : Bytes :=
  if !b.isEmpty && (Utf8.cells b).all isPlain then b else Text.Quoted.quote b

def value : NoticeValue → Bytes
  | .int n => Text.integer n
  | .text b => word b

def line (n : Notice) : Bytes :=
  txt "level=" ++ n.level.name ++ txt " msg=" ++ word n.message ++
    n.fields.flatMap (fun (name, v) => txt " " ++ name ++ txt "=" ++ value v) ++ txt "\n"

/-- The lines of those notices that matter enough. -/
def lines (verbose : Bool) (notices : List Notice) : Bytes :=
  (notices.filter fun n => verbose || n.level == .warn).flatMap line

end Log

end RegCode
