import RegCode.Number.Binary64
import RegCode.Token

/-!
# Programs

A program is a list of statements. Every node knows the token it is named by and the tokens it reaches
over. A declaration that could not be read leaves a `bad` statement in its place, so that the others
stay where they are. A tree put together by hand may also have gaps, shown as `hole`.
-/

namespace RegCode

/-- Where a node stands: the token that names it, and its first and last tokens. -/
structure Place where
  pos : Position := {}
  span : Span := {}
  deriving DecidableEq, Repr, Inhabited

inductive Literal where
  | int (v : Int64)
  | float (v : Binary64)
  | str (s : Bytes)
  /-- Text that is marked as none of the three. -/
  | unmarked (s : Bytes)
  deriving DecidableEq, Repr

def Literal.number? : Literal → Option Binary64
  | int v => some (.ofInt v.toInt)
  | float x => some x
  | str _ | unmarked _ => none

inductive Expr where
  | literal (place : Place) (value : Literal)
  | name (place : Place) (name : Bytes)
  | binary (place : Place) (op : Kind) (left right : Expr)
  | unary (place : Place) (op : Kind) (operand : Expr)
  | group (place : Place) (inner : Expr)
  | assign (place : Place) (name : Bytes) (value : Expr)
  | hole
  deriving DecidableEq, Repr, Inhabited

/-- Where an expression stands; a gap stands nowhere. -/
def Expr.place? : Expr → Option Place
  | literal p _ | name p _ | binary p .. | unary p .. | group p _ | assign p .. => some p
  | hole => none

def Expr.span (e : Expr) : Span := (e.place?.getD {}).span

structure Param where
  name : Bytes
  pos : Position := {}
  deriving DecidableEq, Repr

inductive Stmt where
  | var (place : Place) (name : Bytes) (namePos : Position) (init : Option Expr)
  | print (place : Place) (value : Expr)
  | expr (place : Place) (value : Expr)
  | block (place : Place) (body : List Stmt)
  | ifThen (place : Place) (cond : Expr) (yes : Stmt)
  | ifElse (place : Place) (cond : Expr) (yes no : Stmt)
  | while (place : Place) (cond : Expr) (body : Stmt)
  | ret (place : Place) (value : Option Expr)
  | func (place : Place) (name : Bytes) (namePos : Position) (params : List Param)
      (body : List Stmt)
  /-- A declaration that was given up with a message. -/
  | bad (place : Place) (message : Bytes)
  | hole
  deriving Repr, Inhabited

namespace Stmt

def place? : Stmt → Option Place
  | var p .. | print p _ | expr p _ | block p _ | ifThen p .. | ifElse p .. | .while p .. | ret p _
  | func p .. | bad p _ => some p
  | hole => none

def span (s : Stmt) : Span := (s.place?.getD {}).span

mutual

/-- Puts a statement and those inside it, from the outside in and in order, behind `acc`, which is held
last one first. Gaps are left out. -/
def visitOnto (acc : List Stmt) : Stmt → List Stmt
  | .hole => acc
  | s@(.block _ body) => visitAllOnto (s :: acc) body
  | s@(.ifThen _ _ yes) => visitOnto (s :: acc) yes
  | s@(.ifElse _ _ yes no) => visitOnto (visitOnto (s :: acc) yes) no
  | s@(.while _ _ body) => visitOnto (s :: acc) body
  | s@(.func _ _ _ _ body) => visitAllOnto (s :: acc) body
  | s => s :: acc

def visitAllOnto (acc : List Stmt) : List Stmt → List Stmt
  | [] => acc
  | s :: rest => visitAllOnto (visitOnto acc s) rest

end

/-- A list of statements with all those inside them, each before its parts. -/
def visited (body : List Stmt) : List Stmt := (visitAllOnto [] body).reverse

/-- The message of a declaration that was given up, with its place. -/
def bad? : Stmt → Option (Place × Bytes)
  | bad p message => some (p, message)
  | _ => none

end Stmt

structure Program where
  body : List Stmt := []
  span : Span := {}
  deriving Repr, Inhabited

namespace Program

def firstBad? (p : Program) : Option (Place × Bytes) := (Stmt.visited p.body).findSome? Stmt.bad?

def ok (p : Program) : Bool := p.firstBad?.isNone

/-- The position of the first statement, and nowhere for an empty program. Nothing is known of a program
that begins with a gap. -/
def pos? (p : Program) : Option Position :=
  match p.body with
  | [] => some {}
  | s :: _ => s.place?.map (·.pos)

end Program

end RegCode
