import RegCode.Number.Shortest
import RegCode.Program
import RegCode.Text.Quoted

/-!
# Programs as text

A compact form of programs, one line for each statement. Every operation stands in brackets, so the text
shows how the source was understood. A node is written in front of the text that follows it, so that no
text is copied on the way up through a deep tree.
-/

namespace RegCode

/-- Floating-point numbers keep a point, so that they stay apart from integers. -/
def Literal.renderFloat (x : Binary64) : Bytes :=
  let s := x.text
  if s.any (fun b => (txt ".eEnN").contains b) then s else s ++ txt ".0"

def Literal.render : Literal → Bytes
  | int v => Text.integer v.toInt
  | float x => renderFloat x
  | str s => Text.Quoted.quote s
  | unmarked _ => txt "<invalid literal>"

namespace Expr

/-- The text of an expression, and `tail` behind it. -/
def renderThen : Expr → Bytes → Bytes
  | literal _ v, tail => v.render ++ tail
  | name _ n, tail => n ++ tail
  | binary _ op l r, tail =>
    txt "(" ++ l.renderThen (txt " " ++ op.symbol ++ txt " " ++ r.renderThen (txt ")" ++ tail))
  | unary _ op e, tail => txt "(" ++ op.symbol ++ e.renderThen (txt ")" ++ tail)
  | group _ e, tail => txt "(group " ++ e.renderThen (txt ")" ++ tail)
  | assign _ n e, tail => txt "(" ++ n ++ txt " = " ++ e.renderThen (txt ")" ++ tail)
  | hole, tail => txt "<nil>" ++ tail

def render (e : Expr) : Bytes := e.renderThen []

/-- An expression that need not be there, behind a mark that stands only in front of one. -/
def renderOptional (mark : Bytes) (e? : Option Expr) (tail : Bytes) : Bytes :=
  match e? with
  | some e => mark ++ e.renderThen tail
  | none => tail

end Expr

namespace Stmt

mutual

def renderThen : Stmt → Bytes → Bytes
  | .var _ n _ init, tail =>
    txt "var " ++ n ++ Expr.renderOptional (txt " = ") init (txt ";" ++ tail)
  | .print _ e, tail => txt "print " ++ e.renderThen (txt ";" ++ tail)
  | .expr _ e, tail => e.renderThen (txt ";" ++ tail)
  | .block _ body, tail => txt "\x7b" ++ renderAllThen body (txt " \x7d" ++ tail)
  | .ifThen _ c yes, tail => txt "if (" ++ c.renderThen (txt ") " ++ yes.renderThen tail)
  | .ifElse _ c yes no, tail =>
    txt "if (" ++ c.renderThen (txt ") " ++ yes.renderThen (txt " else " ++ no.renderThen tail))
  | .while _ c body, tail => txt "while (" ++ c.renderThen (txt ") " ++ body.renderThen tail)
  | .ret _ value, tail => txt "return" ++ Expr.renderOptional (txt " ") value (txt ";" ++ tail)
  | .func _ n _ params body, tail =>
    txt "fn " ++ n ++ txt "(" ++ Text.join (txt ", ") (params.map (·.name)) ++ txt ") \x7b" ++
      renderAllThen body (txt " \x7d" ++ tail)
  | .bad _ message, tail => txt "<bad: " ++ message ++ txt ">" ++ tail
  | .hole, tail => txt "<nil>" ++ tail

/-- Each statement behind a blank, and `tail` behind the last. -/
def renderAllThen : List Stmt → Bytes → Bytes
  | [], tail => tail
  | s :: rest, tail => txt " " ++ s.renderThen (renderAllThen rest tail)

end

def render (s : Stmt) : Bytes := s.renderThen []

end Stmt

/-- A line for each statement. -/
def Program.render (p : Program) : Bytes := Text.join (txt "\n") (p.body.map Stmt.render)

end RegCode
