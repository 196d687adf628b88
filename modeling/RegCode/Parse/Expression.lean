import RegCode.Number.Numeral
import RegCode.Parse.Stream
import RegCode.Program

/-!
# Reading expressions

An expression is an operand and then operators with their right sides, as long as the operators bind
tighter than what stands in front. The right side of an operator reaches over everything that binds
tighter than it, so operators of one strength group to the left; only assignment, whose right side may
hold another assignment, groups to the right.
-/

namespace RegCode

namespace Kind

/-- How tightly an operator between two operands binds. One is no operator. -/
def strength : Kind → Nat
  | assign => 2
  | equal | notEqual => 3
  | less | lessEqual | greater | greaterEqual => 4
  | plus | minus => 5
  | star | slash => 6
  | _ => 1

def weakest : Nat := 1

def signStrength : Nat := 7

/-- What the right side of an operator has to be stronger than. -/
def rightStrength : Kind → Nat
  | assign => weakest
  | k => k.strength

end Kind

def Place.ofToken (t : Token) : Place := ⟨t.pos, ⟨t.pos, t.pos⟩⟩

namespace Expr

/-- Whether an expression can be assigned to, and the name if so. -/
def target? : Expr → Option Bytes
  | name _ n => some n
  | _ => none

def operatorNode (left : Expr) (op : Token) (right : Expr) : Expr :=
  .binary ⟨op.pos, ⟨left.span.start, right.span.stop⟩⟩ op.kind left right

def signNode (op : Token) (operand : Expr) : Expr :=
  .unary ⟨op.pos, ⟨op.pos, operand.span.stop⟩⟩ op.kind operand

/-- An assignment, if it has a target. -/
def assignNode? (left : Expr) (op : Token) (value : Expr) : Option Expr :=
  left.target?.map fun n => .assign ⟨op.pos, ⟨left.span.start, value.span.stop⟩⟩ n value

end Expr

namespace TokenStream

/-- Joins an operator to its two sides. An assignment to anything but a name is noted as a fault, and
stays what its left side is. -/
def joined (left : Expr) (op : Token) (right : Expr) (s : TokenStream) : Expr × TokenStream :=
  if op.kind = .assign then
    match left.assignNode? op right with
    | some e => (e, s)
    | none => (left, s.report op .badTarget)
  else (left.operatorNode op right, s)

theorem left_joined (left : Expr) (op : Token) (right : Expr) (s : TokenStream) :
    (joined left op right s).2.left = s.left := by
  unfold joined
  split
  · split <;> rfl
  · rfl

def number {start : TokenStream} (t : Token) (value : Option Literal) (f : SyntaxFault)
    (s : TokenStream) (lt : s.left < start.left) : Reading Expr start :=
  match value with
  | some v => .done (.literal (.ofToken t) v) s lt
  | none => .stuck f (s.report t f) lt

mutual

/-- Reads an expression all of whose outer operators are stronger than `least`. -/
def expr (least : Nat) (s : TokenStream) : Reading Expr s :=
  match operand s with
  | .done e next lt => operators s least e next lt
  | .fail f next moved le => .fail f next moved le
termination_by 2 * s.left + 1
decreasing_by all_goals omega

/-- Reads operators and their right sides behind `left`, which began at `start`. -/
def operators (start : TokenStream) (least : Nat) (left : Expr) (s : TokenStream)
    (lt : s.left < start.left) : Reading Expr start :=
  match h : s.rest with
  | [] => .done left s lt
  | op :: _ =>
    if least < op.kind.strength then
      match expr op.kind.rightStrength s.advance with
      | .done right next lt' =>
        operators start least (joined left op right next).1 (joined left op right next).2 (by
          have := left_advance_lt h
          have := left_joined left op right next
          omega)
      | .fail f next _ le =>
        .stuck f next (by
          have := left_advance_lt h
          omega)
    else .done left s lt
termination_by 2 * s.left
decreasing_by
  all_goals
    have := left_advance_lt h
    try have := left_joined left op right next
    omega

/-- Reads a literal, a name, an expression in brackets or an operator with its operand. -/
def operand (s : TokenStream) : Reading Expr s :=
  match h : s.rest with
  | [] => s.reject .noExpression
  | t :: _ =>
    match t.kind with
    | .int =>
      number t ((Numeral.readInt64 t.literal).map .int) .intOutOfRange s.advance (left_advance_lt h)
    | .float =>
      number t ((Numeral.readBinary64 t.literal).map .float) .floatOutOfRange s.advance
        (left_advance_lt h)
    | .string => .done (.literal (.ofToken t) (.str t.literal)) s.advance (left_advance_lt h)
    | .ident => .done (.name (.ofToken t) t.literal) s.advance (left_advance_lt h)
    | .lparen =>
      Reading.after ((expr Kind.weakest s.advance).bind fun inner s _ =>
        (s.expect .rparen .unclosedGroup).map fun close _ =>
          .group ⟨t.pos, ⟨t.pos, close.pos⟩⟩ inner) (left_advance_lt h)
    | .bang | .minus =>
      Reading.after ((expr Kind.signStrength s.advance).map fun e _ => .signNode t e)
        (left_advance_lt h)
    | _ => s.reject .noExpression
termination_by 2 * s.left
decreasing_by
  all_goals
    have := left_advance_lt h
    omega

end

end TokenStream

end RegCode
