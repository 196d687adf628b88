import RegCode.Chunk.Listing
import RegCode.Compile
import RegCode.Disk
import RegCode.Image.Codec
import RegCode.Parse

/-!
# Building

From a source to an image on a disk, and from an image to a listing. An image is written only if all went
well before; if only writing fails, the compiled program is still there.
-/

namespace RegCode

inductive BuildError where
  | parse (errors : List SyntaxError)
  | compile (f : CompileFailure)
  | encode (e : EncodeError)
  | image (f : Image.Fault)
  | file (e : FileError)
  | store (e : Disk.StoreError)

def CompileFailure.message : CompileFailure → Bytes
  | error e => e.text
  | alreadyUsed => txt "compiler already used"
  | register f => f.message
  | jump f => f.message.getD []
  | gap => []

/-- What is said of an error. Syntax errors have a line each. -/
def BuildError.message : BuildError → Bytes
  | parse errors => Text.join (txt "\n") (errors.map (·.text))
  | compile f => f.message
  | encode e => e.message
  | image f => f.message
  | file e => e.message
  | store e => e.message

def Disk.store (d : Disk) (target : Bytes) (c : Chunk) : Option BuildError × Disk :=
  match c.encode with
  | .error e => (some (.encode e), d)
  | .ok b =>
    match d.replace target b with
    | (.error e, d) => (some (.store e), d)
    | (.ok _, d) => (none, d)

def Disk.load (d : Disk) (path : Bytes) : Except BuildError Image :=
  match d.read path with
  | .error e => .error (.store ⟨.read, path, e⟩)
  | .ok b => (Image.decode b).mapError .image

/-- Reads a source without compiling it. -/
def check (source : Bytes) : Except BuildError Unit :=
  match readProgram source with
  | .error errors => .error (.parse errors)
  | .ok _ => .ok ()

def compileSource (source : Bytes) : Except BuildError Chunk × List Notice :=
  match readProgram source with
  | .error errors => (.error (.parse errors), [])
  | .ok p =>
    let c := compile p
    (c.result.mapError .compile, c.notices)

structure Built where
  /-- The code, also if it could not be written. -/
  chunk : Option Chunk
  error : Option BuildError
  notices : List Notice
  disk : Disk

def build (d : Disk) (source target : Bytes) : Built :=
  match compileSource source with
  | (.error e, notices) => ⟨none, some e, notices, d⟩
  | (.ok c, notices) =>
    let (error, d) := d.store target c
    ⟨some c, error, notices, d⟩

def buildFile (d : Disk) (path target : Bytes) : Built :=
  match d.read path with
  | .error e => ⟨none, some (.file e), [], d⟩
  | .ok source => build d source target

def disassemble (b : Bytes) : Except BuildError Bytes :=
  ((Image.decode b).mapError .image).map fun i => i.chunk.listing

def disassembleFile (d : Disk) (path : Bytes) : Except BuildError Bytes :=
  (d.load path).map fun i => i.chunk.fullListing

end RegCode
