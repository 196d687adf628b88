import RegCode.Const
import RegCode.Instruction
import RegCode.Program

/-!
# Constants at compile time

Arithmetic on two numbers written in the source is done by the compiler, in floating point, and so is the
sign of a number, which keeps its type. Only literals count: brackets around one are enough to have the
work done at run time.
-/

namespace RegCode

def Literal.const : Literal → Const
  | int v => .int v
  | float x => .float x
  | str s | unmarked s => .str s

def Expr.number? : Expr → Option Binary64
  | .literal _ v => v.number?
  | _ => none

namespace Kind

def operation? : Kind → Option Op
  | plus => some .add
  | minus => some .sub
  | star => some .mul
  | slash => some .div
  | less => some (.compare .lt)
  | lessEqual => some (.compare .le)
  | greater => some (.compare .gt)
  | greaterEqual => some (.compare .ge)
  | equal => some (.compare .eq)
  | notEqual => some (.compare .ne)
  | _ => none

def arithmetic? : Kind → Option (Binary64 → Binary64 → Binary64)
  | plus => some .add
  | minus => some .sub
  | star => some .mul
  | slash => some .div
  | _ => none

end Kind

namespace Expr

def fold? (op : Kind) (left right : Expr) : Option Binary64 :=
  match left.number?, right.number?, op.arithmetic? with
  | some x, some y, some f => some (f x y)
  | _, _, _ => none

/-- A literal number with the other sign. -/
def negate? : Expr → Option Const
  | .literal _ (.int v) => some (.int (-v))
  | .literal _ (.float x) => some (.float x.neg)
  | _ => none

end Expr

end RegCode
