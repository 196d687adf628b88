import RegCode.Command

/-!
# The program

Looks at the files that a command line has to do with, runs the command on them, and carries out what it
wrote. A session at a prompt is run line by line.
-/

namespace RegCode.Command

def asString (b : Bytes) : String := (String.fromUTF8? ⟨b.toArray⟩).getD ""

def look (path : Bytes) : IO (Option Entry) := do
  try
    return some (.file (← IO.FS.readBinFile (asString path)).toList)
  catch e =>
    match e with
    | .inappropriateType _ 21 _ => return some .directory
    | _ => return none

def lookAlong (d : Disk) (path : Bytes) : IO Disk := do
  let names := Text.splitOn 47 path
  let mut d := d
  for n in List.range names.length do
    let front := Text.join (txt "/") (names.take (n + 1))
    if let .ok p := d.locate front then
      if let some e ← look front then
        if !Disk.isOutside p then d := d.put p e
  return d

def commit (path contents : Bytes) : IO Unit := do
  let temp := asString (Disk.tempName path 0)
  IO.FS.writeBinFile temp ⟨contents.toArray⟩
  IO.FS.rename temp (asString path)

def carryOut (before after : Disk) : IO Unit := do
  for (p, e) in after.entries do
    if let .file b := e then
      if before.entry? p ≠ some e then commit (Text.join (txt "/") p) b

def put (stream : IO.FS.Stream) (pieces : List Bytes) : IO Unit := do
  stream.write ⟨(Console.joined pieces).toArray⟩
  stream.flush

def display (c : Console) : IO Unit := do
  put (← IO.getStderr) c.err
  put (← IO.getStdout) c.out
  put (← IO.getStdout) c.terminal

partial def converse (style : Style) (o : Options) (input : IO.FS.Stream) (s : Session) :
    IO Session := do
  let s := s.prompt
  display s.console
  let s := { s with console := {} }
  let line ← input.getLine
  let s ← match textLines line.toUTF8.toList with
    | [] => pure (s.close, false)
    | line :: _ => pure (s.step style o line)
  display s.1.console
  let next := { s.1 with console := {} }
  if s.2 then converse style o input next else return next

/-- Runs a session at a prompt, with the history in the home directory. -/
def interact (style : Style) (o : Options) (home : Bytes) : IO UInt32 := do
  let path := historyPath home
  let saved ← look path
  let s := Session.start (match saved with
    | some (.file b) => .ok b
    | _ => .error ⟨.opening, path, .noEntry⟩)
  let s ← converse style o (← IO.getStdin) s
  try IO.FS.writeBinFile (asString path) ⟨s.history.toFile.toArray⟩ catch _ => pure ()
  return 0

/-- Colours are for terminals whose user has not asked to do without. -/
def hasColor : IO Bool := do
  if ((← IO.getEnv "NO_COLOR").getD "") != "" then return false
  if (← IO.getEnv "TERM") == some "dumb" then return false
  (← IO.getStdout).isTty

end RegCode.Command

open RegCode RegCode.Command in
def main (args : List String) : IO UInt32 := do
  let args := args.map fun a => a.toUTF8.toList
  let setting : Setting :=
    { color := ← hasColor, home := ((← IO.getEnv "HOME").getD "").toUTF8.toList }
  match Invocation.ofArgs args with
  | .ok (.repl o) => interact (setting.style o) o setting.home
  | _ =>
    let before ← (paths args).foldlM lookAlong {}
    let r := run setting args before
    display r.console
    try
      carryOut before r.disk
      return UInt32.ofNat r.exit
    catch e =>
      IO.eprintln s!"error: {e}"
      return 1
