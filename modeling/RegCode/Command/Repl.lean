import RegCode.Command.Console
import RegCode.Command.Flag
import RegCode.Command.History

/-!
# The interactive command

Reads entries line by line and shows the code of each. An entry goes on as long as it fails to parse only
because it ends too soon. Words behind a colon are for the prompt itself.
-/

namespace RegCode.Command

/-- Whether a source fails to parse only because it ends: the last error is at its end, blanks aside. -/
def incomplete (source : Bytes) : Bool :=
  match (parseSource source).errors.getLast? with
  | none => false
  | some e =>
    e.lexeme.isEmpty &&
      (Text.trimEnd (fun b => b == 32 || b == 9 || b == 10) source).length ≤ e.pos.offset

def banner : Bytes :=
  txt "Epsilon compiler REPL\nEach entry is compiled on its own and disassembled. Ctrl+D or :quit exits.\n"

/-- Where the history is kept: in the home directory, or where the command is run if there is none. -/
def historyPath (home : Bytes) : Bytes :=
  (if home.isEmpty then [] else home ++ txt "/") ++ txt ".epsilon_history"

structure Session where
  console : Console := {}
  history : History := {}
  /-- What was typed of an entry that goes on. -/
  entry : Bytes := []

namespace Session

def start (saved : Except FileError Bytes) : Session :=
  { console := ({} : Console).print banner,
    history := (saved.toOption.map History.ofFile).getD {} }

/-- Asks for a line: the first of an entry, or one more. -/
def prompt (s : Session) : Session :=
  { s with console := s.console.prompt (if s.entry.isEmpty then txt "eps> " else txt "...  ") }

def close (s : Session) : Session := { s with console := s.console.printLine [] }

def display (style : Style) (o : Options) (entry : Bytes) (s : Session) : Session :=
  let h := s.history.add (entry.map fun b => if b == Text.newline then 32 else b)
  let (result, notices) := compileSource entry
  let c := s.console.complain (Log.lines o.verbose notices)
  match result with
  | .error e => { s with console := c.complain (e.report style entry), history := h }
  | .ok chunk => { s with console := c.print chunk.listing, history := h }

def enter (style : Style) (o : Options) (entry : Bytes) (s : Session) : Session × Bool :=
  let word := Text.trim entry
  match word with
  | [] => (s, true)
  | 58 :: _ =>
    if [txt ":quit", txt ":q"].contains (Text.lower word) then (s, false)
    else ({ s with console := s.console.printLine (txt "unknown command. Type :quit to exit.") }, true)
  | _ => (s.display style o entry, true)

def step (style : Style) (o : Options) (line : Bytes) (s : Session) : Session × Bool :=
  let entry := if s.entry.isEmpty then line else s.entry ++ txt "\n" ++ line
  if incomplete entry then ({ s with entry := entry }, true)
  else ({ s with entry := [] } : Session).enter style o entry

def run (style : Style) (o : Options) (s : Session) : List Bytes → Session
  | [] => s.prompt.close
  | line :: rest =>
    match s.prompt.step style o line with
    | (s, true) => run style o s rest
    | (s, false) => s

end Session

/-- Runs a session on some input. The history is read before and written after it. -/
def repl (style : Style) (o : Options) (home input : Bytes) (d : Disk) : Result :=
  let path := historyPath home
  let s := (Session.start (d.read path)).run style o (textLines input)
  ⟨0, s.console, d.overwrite path s.history.toFile⟩

end RegCode.Command
