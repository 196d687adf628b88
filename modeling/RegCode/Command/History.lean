import RegCode.Text.Utf8

/-!
# History

The entries typed at a prompt, kept from one session to the next in a file with a line for each. Reading
such a file stops at the first line that is too long or no text.
-/

namespace RegCode.Command

def historyLimit : Nat := 1000

/-- A line of a history file is shorter than this. -/
def historyLineLimit : Nat := 4096

/-- The lines of a text, without their newlines and the carriage returns in front of those. What stands
behind the last newline is a line if there is anything. -/
def textLines (b : Bytes) : List Bytes :=
  match (Text.splitOn Text.newline b).reverse with
  | [] => []
  | last :: ended =>
    let ended := ended.map fun line => if line.getLast? = some 13 then line.dropLast else line
    (if last.isEmpty then ended else last :: ended).reverse

structure History where
  entries : List Bytes := []
  deriving DecidableEq, Repr

namespace History

def latest (entries : List Bytes) : List Bytes := entries.drop (entries.length - historyLimit)

/-- The lines of a file that can be entries. The limit counts a carriage return at the end of a line. -/
def readable (b : Bytes) : List Bytes :=
  ((textLines b).zip (Text.splitOn Text.newline b)).takeWhile
    (fun (line, whole) => whole.length < historyLineLimit && Utf8.valid line) |>.map (·.1)

def ofFile (b : Bytes) : History := ⟨latest (readable b)⟩

/-- Adds an entry, unless it is the same as the one before. -/
def add (h : History) (entry : Bytes) : History :=
  if h.entries.getLast? = some entry then h else ⟨latest (h.entries ++ [entry])⟩

def toFile (h : History) : Bytes := h.entries.flatMap (· ++ txt "\n")

end History

end RegCode.Command
