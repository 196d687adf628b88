import RegCode.Command.Compile
import RegCode.Command.Invocation
import RegCode.Command.Repl

/-!
# The command line

Runs what an argument list asks for. Colours are switched off by a flag, but not before the command line
as a whole has been found to be right.
-/

namespace RegCode.Command

def dump (style : Style) (path : Bytes) (d : Disk) : Result :=
  match disassembleFile d path with
  | .error e => failed {} style e.message d
  | .ok listing => ⟨0, ({} : Console).print listing, d⟩

structure Setting where
  color : Bool := false
  /-- The home directory; empty if it is where the command is run. -/
  home : Bytes := []
  input : Bytes := []
  /-- What is answered if help or completions are asked for: an exit code and what is written. -/
  assist : List Bytes → Nat × Console := fun _ => (0, {})

def Setting.style (s : Setting) (o : Options) : Style := ⟨s.color && !o.noColor⟩

def run (s : Setting) (args : List Bytes) (d : Disk) : Result :=
  match Invocation.ofArgs args with
  | .error e => failed {} ⟨s.color⟩ e.message d
  | .ok i =>
    let style := s.style i.options
    match i with
    | .compile path? o => compileFile style o path? d
    | .dump path _ => dump style path d
    | .repl o => repl style o s.home s.input d
    | .assist args => ⟨(s.assist args).1, (s.assist args).2, d⟩

def paths (args : List Bytes) : List Bytes :=
  match Invocation.ofArgs args with
  | .ok (.compile path? o) => path?.toList ++ [o.output]
  | .ok (.dump path _) => [path]
  | .ok (.repl _) | .ok (.assist _) | .error _ => []

end RegCode.Command
