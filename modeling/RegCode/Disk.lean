import RegCode.Text.Basic

/-!
# Disks

Files and directories below a working directory. Every step of reading and writing may be told to go
wrong, so that what is left behind then can be spoken of. Replacing a file goes through a temporary file
beside it, which takes the name of the target only when it is complete: either the target is as it was, or
it has all of the new contents.
-/

namespace RegCode

/-- The names on the way from the working directory. -/
abbrev Path := List Bytes

inductive Entry where
  | file (contents : Bytes)
  | directory
  deriving DecidableEq, Repr

inductive Errno where
  | noEntry
  | notDirectory
  | isDirectory
  | alreadyThere
  | nameTooLong
  | invalid
  | inputOutput
  deriving DecidableEq, Repr

def Errno.text : Errno → Bytes
  | noEntry => txt "no such file or directory"
  | notDirectory => txt "not a directory"
  | isDirectory => txt "is a directory"
  | alreadyThere => txt "file exists"
  | nameTooLong => txt "file name too long"
  | invalid => txt "invalid argument"
  | inputOutput => txt "input/output error"

inductive DiskStep where
  | read
  | create
  | write
  | sync
  | chmod
  | close
  | rename
  deriving DecidableEq, Repr

structure Disk where
  /-- What is there. No path stands twice. -/
  entries : List (Path × Entry) := []
  /-- The steps that go wrong whatever is there, and how. -/
  mishap : DiskStep → Option Errno := fun _ => none
  /-- How many bytes a write leaves behind that goes wrong. -/
  torn : Nat := 0

inductive FileOp where
  | opening
  | reading
  | writing
  | syncing
  | changingMode
  | closing
  | renaming (target : Bytes)
  deriving DecidableEq, Repr

structure FileError where
  op : FileOp
  path : Bytes
  errno : Errno
  deriving DecidableEq, Repr

def FileError.message (e : FileError) : Bytes :=
  let what (verb : Bytes) : Bytes := verb ++ txt " " ++ e.path ++ txt ": "
  (match e.op with
    | .opening => what (txt "open")
    | .reading => what (txt "read")
    | .writing => what (txt "write")
    | .syncing => what (txt "sync")
    | .changingMode => what (txt "chmod")
    | .closing => what (txt "close")
    | .renaming target => txt "rename " ++ e.path ++ txt " " ++ target ++ txt ": ") ++ e.errno.text

namespace Disk

/-- Directories around the working directory, of which nothing is known but that they are there. -/
def isOutside (p : Path) : Bool := p.all fun name => name == txt ".." || name == txt "/"

def entry? (d : Disk) (p : Path) : Option Entry :=
  if isOutside p then some .directory else d.entries.lookup p

def parent (p : Path) : Path :=
  if p == [txt "/"] then p else if isOutside p then txt ".." :: p else p.dropLast

def maxName : Nat := 255

/-- A written path has fewer bytes than this. -/
def pathLimit : Nat := 4096

/-- Goes down from `here` by some names. Only what is followed by another name has to be there. -/
def walk (d : Disk) (here : Path) : List Bytes → Except Errno Path
  | [] => .ok here
  | name :: rest =>
    match d.entry? here with
    | none => .error .noEntry
    | some (.file _) => .error .notDirectory
    | some .directory =>
      if maxName < name.length then .error .nameTooLong
      else
        d.walk
          (if name == [] || name == txt "." then here
            else if name == txt ".." then parent here
            else here ++ [name])
          rest

/-- Where a written path leads. A zero byte would end it early and is refused. -/
def locate (d : Disk) (path : Bytes) : Except Errno Path :=
  if path.contains 0 then .error .invalid
  else if pathLimit ≤ path.length then .error .nameTooLong
  else
    match path with
    | [] => .error .noEntry
    | 47 :: rest => d.walk [txt "/"] (Text.splitOn 47 rest)
    | path => d.walk [] (Text.splitOn 47 path)

def has (d : Disk) (path : Bytes) : Bool :=
  match d.locate path with
  | .ok p => (d.entry? p).isSome
  | .error _ => false

def put (d : Disk) (p : Path) (e : Entry) : Disk :=
  if d.entries.any (·.1 == p) then
    { d with entries := d.entries.map fun x => if x.1 == p then (p, e) else x }
  else { d with entries := d.entries ++ [(p, e)] }

def remove (d : Disk) (p : Path) : Disk :=
  { d with entries := d.entries.filter (·.1 != p) }

def read (d : Disk) (path : Bytes) : Except FileError Bytes :=
  match d.mishap .read with
  | some e => .error ⟨.reading, path, e⟩
  | none =>
    match d.locate path with
    | .error e => .error ⟨.opening, path, e⟩
    | .ok p =>
      match d.entry? p with
      | none => .error ⟨.opening, path, .noEntry⟩
      | some .directory => .error ⟨.reading, path, .isDirectory⟩
      | some (.file b) => .ok b

/-- Writes a file in place, if that can be done. -/
def overwrite (d : Disk) (path contents : Bytes) : Disk :=
  match d.locate path with
  | .error _ => d
  | .ok p =>
    match d.entry? p with
    | some .directory => d
    | _ => d.put p (.file contents)

/-! ## Replacing a file -/

/-- A path up to its last slash, and the name behind that. -/
def split (path : Bytes) : Bytes × Bytes :=
  let base := (path.reverse.takeWhile (· != 47)).reverse
  (path.take (path.length - base.length), base)

/-- The first of the numbers that tell temporary files apart. They have ten digits. -/
def firstTemp : Nat := 1000000000

/-- The name of the `n`th temporary file for a target, in the same directory. -/
def tempName (target : Bytes) (n : Nat) : Bytes :=
  let (dir, base) := split target
  (if dir.isEmpty then txt "./" else dir) ++ txt "." ++ base ++ txt ".tmp-" ++
    Text.decimal (firstTemp + n)

/-- The first name for a temporary file that is not taken. -/
def freshName (d : Disk) (target : Bytes) : Bytes :=
  let n := (List.range (d.entries.length + 1)).find? fun n => !d.has (tempName target n)
  tempName target (n.getD 0)

def create (d : Disk) (path : Bytes) : Except Errno (Path × Disk) :=
  match d.mishap .create with
  | some e => .error e
  | none =>
    match d.locate path with
    | .error e => .error e
    | .ok p => if (d.entry? p).isSome then .error .alreadyThere else .ok (p, d.put p (.file []))

/-- Gives what is at `p` another name. A directory is never replaced. -/
def rename (d : Disk) (p : Path) (target : Bytes) : Except Errno Disk :=
  match d.mishap .rename with
  | some e => .error e
  | none =>
    match d.locate target, d.entry? p with
    | .error e, _ => .error e
    | .ok _, none => .error .noEntry
    | .ok q, some entry =>
      if d.entry? q = some .directory then .error .alreadyThere
      else .ok ((d.remove p).put q entry)

/-- What was being done for a target, of which `cause` is the failure. -/
inductive Activity where
  | read
  | write
  | sync
  | chmod
  | close
  | rename
  deriving DecidableEq, Repr

def Activity.name : Activity → Bytes
  | read => txt "read"
  | write => txt "write"
  | sync => txt "sync"
  | chmod => txt "chmod"
  | close => txt "close"
  | rename => txt "rename"

structure StoreError where
  activity : Activity
  target : Bytes
  cause : FileError
  deriving DecidableEq, Repr

def StoreError.message (e : StoreError) : Bytes :=
  txt "artifact: " ++ e.activity.name ++ txt " " ++ e.target ++ txt ": " ++ e.cause.message

def firstMishap (d : Disk) (steps : List (DiskStep × Activity × FileOp)) :
    Option (Activity × FileOp × Errno) :=
  steps.findSome? fun (step, activity, op) => (d.mishap step).map fun e => (activity, op, e)

/-- The steps between writing the temporary file and giving it the name of its target. -/
def finishingSteps : List (DiskStep × Activity × FileOp) :=
  [(.sync, .sync, .syncing), (.chmod, .chmod, .changingMode), (.close, .close, .closing)]

/-- Writes the file at `p` and finishes it. Also if that goes wrong something may have been written. -/
def fill (d : Disk) (p : Path) (contents : Bytes) : Option (Activity × FileOp × Errno) × Disk :=
  match d.mishap .write with
  | some e => (some (.write, .writing, e), d.put p (.file (contents.take d.torn)))
  | none => (d.firstMishap finishingSteps, d.put p (.file contents))

/-- Gives a target new contents, all or nothing. Whatever goes wrong, the temporary file is removed. -/
def replace (d : Disk) (target contents : Bytes) : Except StoreError Unit × Disk :=
  let temp := d.freshName target
  match d.create temp with
  | .error e => (.error ⟨.write, target, ⟨.opening, temp, e⟩⟩, d)
  | .ok (p, d) =>
    match d.fill p contents with
    | (some (activity, op, e), d) => (.error ⟨activity, target, ⟨op, temp, e⟩⟩, d.remove p)
    | (none, d) =>
      match d.rename p target with
      | .error e => (.error ⟨.rename, target, ⟨.renaming target, temp, e⟩⟩, d.remove p)
      | .ok d => (.ok (), d)

end Disk

end RegCode
