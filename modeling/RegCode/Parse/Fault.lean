import RegCode.Token

/-!
# Syntax errors

What can be wrong with a list of tokens, and how it is said. Each error is at a token and remembers its
text; an error at the end of the input has none.
-/

namespace RegCode

/-- What is wrong: what was looked for and not found, or what is not allowed. -/
inductive SyntaxFault where
  | noFunctionName
  | noParameterList
  | noParameterName
  | unclosedParameters
  | noFunctionBody
  | tooManyParameters
  | noVariableName
  | unendedDeclaration
  | noIfCondition
  | unclosedIfCondition
  | noWhileCondition
  | unclosedWhileCondition
  | unendedReturn
  | unendedPrint
  | unclosedBlock
  | unendedExpression
  | noExpression
  | unclosedGroup
  | intOutOfRange
  | floatOutOfRange
  | badTarget
  /-- The text of the token says itself what is wrong. -/
  | stated (message : Bytes)
  deriving DecidableEq, Repr

def SyntaxFault.message : SyntaxFault → Bytes
  | noFunctionName => txt "Expect function name."
  | noParameterList => txt "Expect '(' after function name."
  | noParameterName => txt "Expect parameter name."
  | unclosedParameters => txt "Expect ')' after parameters."
  | noFunctionBody => txt "Expect '\x7b' before function body."
  | tooManyParameters => txt "Can't have more than 255 parameters."
  | noVariableName => txt "Expect variable name."
  | unendedDeclaration => txt "Expect ';' after variable declaration."
  | noIfCondition => txt "Expect '(' after 'if'."
  | unclosedIfCondition => txt "Expect ')' after if condition."
  | noWhileCondition => txt "Expect '(' after 'while'."
  | unclosedWhileCondition => txt "Expect ')' after while condition."
  | unendedReturn => txt "Expect ';' after return value."
  | unendedPrint => txt "Expect ';' after value."
  | unclosedBlock => txt "Expect '\x7d' after block."
  | unendedExpression => txt "Expect ';' after expression."
  | noExpression => txt "Expect expression."
  | unclosedGroup => txt "Expect ')' after expression."
  | intOutOfRange => txt "Integer literal out of range."
  | floatOutOfRange => txt "Float literal out of range."
  | badTarget => txt "Invalid assignment target."
  | stated message => message

structure SyntaxError where
  pos : Position
  fault : SyntaxFault
  /-- The text of the token; empty at the end of the input. -/
  lexeme : Bytes := []
  deriving DecidableEq, Repr

namespace SyntaxError

def message (e : SyntaxError) : Bytes := e.fault.message

def text (e : SyntaxError) : Bytes := e.pos.tag ++ txt " " ++ e.message

def atToken (t : Token) (f : SyntaxFault) : SyntaxError :=
  ⟨t.pos, f, if t.kind = .eof then [] else t.literal⟩

/-- The first of some errors, and how many more there are. -/
def summary : List SyntaxError → Bytes
  | [] => txt "no errors"
  | [e] => e.text
  | e :: rest => e.text ++ txt " (and " ++ Text.decimal rest.length ++ txt " more errors)"

end SyntaxError

end RegCode
