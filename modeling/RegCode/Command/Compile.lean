import RegCode.Command.Console
import RegCode.Command.Flag
import RegCode.Program.Render

/-!
# The compile command

Compiles a file, or a small program of its own if none is given, and writes the image. On the way it shows
the source, its tokens, the tree and the code.
-/

namespace RegCode.Command

/-- What is compiled if no file is given. -/
def defaultSource : Bytes :=
  txt "var x = 10;\nvar y = 20;\nprint x + y;\nfn add(a, b) \x7b\n  return a + b;\n\x7d\n"

def tokenLine (t : Token) : Bytes :=
  Text.padLeft 4 32 (Text.integer t.pos.line) ++ txt ":" ++
    Text.padRight 3 (Text.integer t.pos.column) ++ txt " " ++ Text.padRight 12 t.kind.name ++ txt " " ++
    Text.Quoted.quote t.literal ++ txt "\n"

/-- Writes a heading and what stands below it, unless the command is quiet. -/
def paragraph (o : Options) (heading body : Bytes) (c : Console) : Console :=
  if o.quiet then c else (c.print heading).print body

def heading (style : Style) (title : Bytes) : Bytes :=
  style.inline .heading (txt "== " ++ title ++ txt " ==") ++ txt "\n"

def compileText (style : Style) (o : Options) (name source : Bytes) (d : Disk) : Result :=
  let report (c : Console) (e : BuildError) (d : Disk) : Result :=
    ⟨1, c.complain (e.report style source), d⟩
  let c : Console := ({} : Console).complain (Log.lines o.verbose [.compiling name source.length])
  let tokens := tokenize source
  let c := paragraph o
    (style.whole .heading (txt "== source: " ++ name ++ txt " ==\n"))
    (Text.trimEnd (· == Text.newline) source ++ txt "\n") c
  let c := paragraph o (heading style (txt "tokens")) (tokens.flatMap tokenLine) c
  let parsed := parse tokens
  if !parsed.errors.isEmpty then report c (.parse parsed.errors) d
  else
    let c := paragraph o (heading style (txt "ast")) (parsed.program.render ++ txt "\n") c
    let compiled := compile parsed.program
    let c := c.complain (Log.lines o.verbose compiled.notices)
    match compiled.result with
    | .error f => report c (.compile f) d
    | .ok chunk =>
      let c := paragraph o (heading style (txt "bytecode")) chunk.listing c
      match d.store o.output chunk with
      | (some e, d) => report c e d
      | (none, d) =>
        ⟨0, c.print (style.whole .success (txt "wrote " ++ o.output ++ txt " (" ++
          Text.decimal chunk.code.size ++ txt " instructions, " ++ Text.decimal chunk.consts.size ++
          txt " constants)\n")), d⟩

/-- Compiles a file, or only checks that it can be read as a program. -/
def compileFile (style : Style) (o : Options) (path? : Option Bytes) (d : Disk) : Result :=
  let named : Except FileError (Bytes × Bytes) :=
    match path? with
    | none => .ok (txt "<default>", defaultSource)
    | some path => (d.read path).map (path, ·)
  match named with
  | .error e => failed {} style e.message d
  | .ok (name, source) =>
    if o.check then ⟨if (check source).isOk then 0 else 1, {}, d⟩
    else compileText style o name source d

end RegCode.Command
