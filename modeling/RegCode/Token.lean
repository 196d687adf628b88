import RegCode.Text.Basic

/-!
# Tokens

A token is a piece of source text with its kind, its literal and the position of its first byte. The
literal of a string is its unescaped content, that of an illegal token says what is wrong with it.
-/

namespace RegCode

/-- A place in a source: a byte offset from zero, a line and a column in bytes from one. All are zero
where the place is not known. -/
structure Position where
  offset : Int := 0
  line : Int := 0
  column : Int := 0
  deriving DecidableEq, Repr, Inhabited

/-- The positions of the first and the last token of a construct. -/
structure Span where
  start : Position := {}
  stop : Position := {}
  deriving DecidableEq, Repr, Inhabited

def Position.tag (p : Position) : Bytes :=
  txt "[" ++ Text.integer p.line ++ txt ":" ++ Text.integer p.column ++ txt "]"

inductive Kind where
  | illegal
  | eof
  | ident
  | int
  | float
  | string
  | kwFn
  | kwVar
  | kwPrint
  | kwIf
  | kwElse
  | kwWhile
  | kwReturn
  | assign
  | plus
  | minus
  | star
  | slash
  | bang
  | equal
  | notEqual
  | less
  | lessEqual
  | greater
  | greaterEqual
  | comma
  | semicolon
  | lparen
  | rparen
  | lbrace
  | rbrace
  /-- A kind that no source text has; it can stand only in a list of tokens made by hand. -/
  | other (name : Bytes)
  deriving DecidableEq, Repr, Inhabited

namespace Kind

def name : Kind → Bytes
  | illegal => txt "ILLEGAL"
  | eof => txt "EOF"
  | ident => txt "IDENT"
  | int => txt "INT"
  | float => txt "FLOAT"
  | string => txt "STRING"
  | kwFn => txt "FUNCTION"
  | kwVar => txt "VAR"
  | kwPrint => txt "PRINT"
  | kwIf => txt "IF"
  | kwElse => txt "ELSE"
  | kwWhile => txt "WHILE"
  | kwReturn => txt "RETURN"
  | assign => txt "ASSIGN"
  | plus => txt "PLUS"
  | minus => txt "MINUS"
  | star => txt "STAR"
  | slash => txt "SLASH"
  | bang => txt "BANG"
  | equal => txt "EQUAL"
  | notEqual => txt "NOTEQUAL"
  | less => txt "LESS"
  | lessEqual => txt "LESSEQUAL"
  | greater => txt "GREATER"
  | greaterEqual => txt "GREATEREQUAL"
  | comma => txt "COMMA"
  | semicolon => txt "SEMICOLON"
  | lparen => txt "LPAREN"
  | rparen => txt "RPAREN"
  | lbrace => txt "LBRACE"
  | rbrace => txt "RBRACE"
  | other name => name

def all : List Kind :=
  [illegal, eof, ident, int, float, string, kwFn, kwVar, kwPrint, kwIf, kwElse, kwWhile, kwReturn,
   assign, plus, minus, star, slash, bang, equal, notEqual, less, lessEqual, greater, greaterEqual,
   comma, semicolon, lparen, rparen, lbrace, rbrace]

def ofName (n : Bytes) : Kind := (all.find? fun k => k.name == n).getD (other n)

/-- The spelling of operators and delimiters, and the name of every other kind. -/
def symbol : Kind → Bytes
  | assign => txt "="
  | plus => txt "+"
  | minus => txt "-"
  | star => txt "*"
  | slash => txt "/"
  | bang => txt "!"
  | equal => txt "=="
  | notEqual => txt "!="
  | less => txt "<"
  | lessEqual => txt "<="
  | greater => txt ">"
  | greaterEqual => txt ">="
  | comma => txt ","
  | semicolon => txt ";"
  | lparen => txt "("
  | rparen => txt ")"
  | lbrace => txt "\x7b"
  | rbrace => txt "\x7d"
  | k => k.name

/-- The words of the language. Functions have two spellings. -/
def keywords : List (Bytes × Kind) :=
  [(txt "fn", kwFn), (txt "function", kwFn), (txt "var", kwVar), (txt "print", kwPrint),
   (txt "if", kwIf), (txt "else", kwElse), (txt "while", kwWhile), (txt "return", kwReturn)]

def ofWord (word : Bytes) : Kind := (keywords.lookup word).getD ident

/-- The kinds that begin a declaration or a statement, at which parsing can start again. -/
def startsStatement : Kind → Bool
  | kwFn | kwVar | kwIf | kwWhile | kwPrint | kwReturn => true
  | _ => false

end Kind

structure Token where
  kind : Kind
  literal : Bytes
  pos : Position := {}
  deriving DecidableEq, Repr, Inhabited

end RegCode
