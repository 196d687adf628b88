import RegCode.Parse.Statement
import RegCode.Token.Scan

/-!
# Parsing

The program in a list of tokens, with the errors found in it. There is a program in any case; it is fit
for compiling if there are no errors.
-/

namespace RegCode

structure Parsed where
  program : Program
  errors : List SyntaxError

def Program.spanOf (body : List Stmt) : Span :=
  match body.head?, body.getLast? with
  | some first, some last => ⟨first.span.start, last.span.stop⟩
  | _, _ => {}

/-- Reads a program up to the first token that marks an end. -/
def parse (tokens : List Token) : Parsed :=
  let (body, s) := (TokenStream.ofTokens tokens).declarations []
  ⟨⟨body, Program.spanOf body⟩, s.errors.toList⟩

def parseSource (source : Bytes) : Parsed := parse (tokenize source)

def readProgram (source : Bytes) : Except (List SyntaxError) Program :=
  let p := parseSource source
  if p.errors.isEmpty then .ok p.program else .error p.errors

end RegCode
