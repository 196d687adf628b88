import RegCode.Proofs.WellFormed

/-!
# What a program asks for

The expressions of a program in the order of the text. What stands in a function body or behind a `return` is
not compiled and counts for nothing. Every expression takes a register for its value behind the variables that
are declared before it, and more for its operands; a literal, and an operator that the compiler works out itself,
takes a constant. The code of a program has the registers and the constants that its text asks for.
-/

namespace RegCode

namespace Expr

def isNumber : Expr → Bool
  | literal _ (.int _) | literal _ (.float _) => true
  | _ => false

/-- The outermost operator is one of arithmetic and has nothing but literal numbers, so that nothing is left to
compute. -/
def folded : Expr → Bool
  | binary _ op left right => [Kind.plus, .minus, .star, .slash].contains op && left.isNumber && right.isNumber
  | unary _ op e => op == .minus && e.isNumber
  | literal .. | name .. | group .. | assign .. | hole => false

theorem isSome_number? (e : Expr) : e.number?.isSome = e.isNumber := by
  cases e with
  | literal p v => cases v <;> rfl
  | _ => rfl

theorem isSome_negate? (e : Expr) : e.negate?.isSome = e.isNumber := by
  cases e with
  | literal p v => cases v <;> rfl
  | _ => rfl

theorem folded_binary (p : Place) (op : Kind) (left right : Expr) :
    (binary p op left right).folded = (fold? op left right).isSome := by
  rw [folded, ← isSome_number? left, ← isSome_number? right, fold?]
  cases left.number? with
  | none => cases op <;> rfl
  | some x =>
    cases right.number? with
    | none => cases op <;> rfl
    | some y => cases op <;> rfl

theorem folded_unary (p : Place) (op : Kind) (e : Expr) :
    (unary p op e).folded = (op == .minus && e.negate?.isSome) := by
  rw [folded, isSome_negate?]

/-- How many registers an expression takes besides the one for its value. -/
def need : Expr → Nat
  | literal .. | name .. | hole => 0
  | binary p op left right => if (binary p op left right).folded then 0 else max left.need (1 + right.need)
  | unary p op e => if (unary p op e).folded then 0 else max e.need 1
  | group _ e | assign _ _ e => e.need

/-- How many constants the code of an expression loads. A sign is an operation with zero. -/
def constants : Expr → Nat
  | literal .. => 1
  | name .. | hole => 0
  | binary p op left right => if (binary p op left right).folded then 1 else left.constants + right.constants
  | unary p op e => if (unary p op e).folded then 1 else e.constants + 1
  | group _ e | assign _ _ e => e.constants

section
variable {p : Place} {op : Kind} {left right e : Expr}

theorem need_binary (h : fold? op left right = none) :
    (binary p op left right).need = max left.need (1 + right.need) := by
  simp [need, folded_binary, h]

theorem constants_binary (h : fold? op left right = none) :
    (binary p op left right).constants = left.constants + right.constants := by
  simp [constants, folded_binary, h]

theorem need_unary (h : (unary p op e).folded = false) : (unary p op e).need = max e.need 1 := by
  simp [need, h]

theorem constants_unary (h : (unary p op e).folded = false) : (unary p op e).constants = e.constants + 1 := by
  simp [constants, h]

end

end Expr

/-- A step of a program: a declaration, or an expression whose value is printed, tested or dropped. -/
inductive Task where
  | declare (name : Bytes) (init : Option Expr)
  | evaluate (e : Expr)

namespace Task

def value? : Task → Option Expr
  | declare _ init => init
  | evaluate e => some e

def name? : Task → Option Bytes
  | declare n _ => some n
  | evaluate _ => none

def need (t : Task) : Nat := t.value?.elim 0 Expr.need

def constants (t : Task) : Nat := t.value?.elim 0 Expr.constants

/-- The scope in which the expression of a task stands, and the one behind it. -/
def scope (S : Scope) : Task → Scope
  | declare n _ => S.declare n
  | evaluate _ => S

end Task

namespace Stmt

mutual

def tasks : Stmt → List Task
  | .var _ n _ init => [.declare n init]
  | .print _ e | .expr _ e => [.evaluate e]
  | .block _ body => tasksAll body
  | .ifThen _ cond yes => .evaluate cond :: yes.tasks
  | .ifElse _ cond yes no => .evaluate cond :: (yes.tasks ++ no.tasks)
  | .while _ cond body => .evaluate cond :: body.tasks
  | .ret .. | .func .. | .bad .. | .hole => []

def tasksAll : List Stmt → List Task
  | [] => []
  | s :: rest => s.tasks ++ tasksAll rest

end

end Stmt

def Program.tasks (p : Program) : List Task := Stmt.tasksAll p.body

/-- How many registers the tasks take behind `k` declarations. -/
def Task.demand : (k : Nat) → List Task → Nat
  | _, [] => 0
  | k, t :: rest => max (k + 1 + t.need) (demand (k + t.name?.toList.length) rest)

def Task.load : List Task → Nat
  | [] => 0
  | t :: ts => t.constants + load ts

namespace Scope

def behind (S : Scope) (ts : List Task) : Scope := ts.foldl Task.scope S

@[simp] theorem behind_nil (S : Scope) : S.behind [] = S := rfl

@[simp] theorem behind_cons (S : Scope) (t : Task) (ts : List Task) : S.behind (t :: ts) = (t.scope S).behind ts :=
  rfl

@[simp] theorem behind_append (S : Scope) (ts us : List Task) : S.behind (ts ++ us) = (S.behind ts).behind us :=
  List.foldl_append

theorem cells_scope (S : Scope) (t : Task) : (t.scope S).cells = S.cells + t.name?.toList.length := by
  cases t <;> rfl

mutual

theorem after_eq (S : Scope) : ∀ s : Stmt, S.after s = S.behind s.tasks
  | .var .. => by simp [after, Stmt.tasks, Task.scope]
  | .block _ body => by simp only [after, Stmt.tasks, afterAll_eq S body]
  | .ifThen _ _ yes => by simp [after, Stmt.tasks, Task.scope, after_eq S yes]
  | .ifElse _ _ yes no => by simp [after, Stmt.tasks, Task.scope, after_eq S yes, after_eq _ no]
  | .while _ _ body => by simp [after, Stmt.tasks, Task.scope, after_eq S body]
  | .print .. | .expr .. => by simp [after, Stmt.tasks, Task.scope]
  | .ret .. | .func .. | .bad .. | .hole => by simp [after, Stmt.tasks]

theorem afterAll_eq (S : Scope) : ∀ l : List Stmt, S.afterAll l = S.behind (Stmt.tasksAll l)
  | [] => by simp [afterAll, Stmt.tasksAll]
  | s :: rest => by simp [afterAll, Stmt.tasksAll, after_eq S s, afterAll_eq _ rest]

end

end Scope

namespace Task

@[simp] theorem load_nil : load [] = 0 := rfl

@[simp] theorem load_cons (t : Task) (ts : List Task) : load (t :: ts) = t.constants + load ts := rfl

@[simp] theorem load_append (ts us : List Task) : load (ts ++ us) = load ts + load us := by
  induction ts with
  | nil => simp
  | cons t ts ih => simp [ih, Nat.add_assoc]

theorem demand_append (S : Scope) (ts us : List Task) :
    demand S.cells (ts ++ us) = max (demand S.cells ts) (demand (S.behind ts).cells us) := by
  induction ts generalizing S with
  | nil => simp [demand]
  | cons t ts ih =>
    simp only [List.cons_append, demand, Scope.behind_cons, ← Scope.cells_scope, ih, Nat.max_assoc]

end Task

/-! ## The code has what the text asks for -/

namespace Fragment

@[simp] theorem peak_take (depth : Nat) : (take depth).peak = depth + 1 := rfl

@[simp] theorem peak_one (q : Piece) : (one q).peak = 0 := rfl

@[simp] theorem peak_constant (t : Register) (k : Nat) (v : Const) : (constant t k v).peak = 0 := rfl

@[simp] theorem consts_declared (F : Fragment) : F.declared.consts = F.consts := rfl

@[simp] theorem peak_declared (F : Fragment) : F.declared.peak = F.peak := rfl

@[simp] theorem consts_looped (F : Fragment) : F.looped.consts = F.consts := rfl

@[simp] theorem peak_looped (F : Fragment) : F.looped.peak = F.peak := rfl

@[simp] theorem consts_moved (t r : Register) : (moved t r).consts = [] := by
  unfold moved
  split <;> rfl

@[simp] theorem peak_moved (t r : Register) : (moved t r).peak = 0 := by
  unfold moved
  split <;> rfl

@[simp] theorem consts_stored (c : Nat) (r : Register) : (stored c r).consts = [] := by
  unfold stored
  split <;> rfl

@[simp] theorem peak_stored (c : Nat) (r : Register) : (stored c r).peak = 0 := by
  unfold stored
  split <;> rfl

end Fragment

@[simp] theorem Scope.peak_kept (S : Scope) (t r : Register) (e : Expr) : (S.kept t r e).peak = 0 := by
  unfold kept
  split <;> rfl

section
variable {S : Scope} {k : Nat} {e : Expr} {F : Fragment} {r : Register}

theorem ExprCode.load_eq {d : Nat} {t : Register} (h : ExprCode S d k e t F r) : F.consts.length = e.constants := by
  induction h with
  | literal | name => rfl
  | group _ ih => exact ih
  | folded hf | negated hf => simp [Expr.constants, Expr.folded_binary, Expr.folded_unary, hf]
  | binary hf _ _ _ _ ihF ihG =>
    rw [Expr.constants_binary hf, ← ihF, ← ihG]
    simp
  | minus hn _ _ _ ih =>
    rw [Expr.constants_unary (by simp [Expr.folded_unary, hn]), ← ih]
    simp
  | bang _ _ _ ih =>
    rw [Expr.constants_unary rfl, ← ih]
    simp
  | assign _ _ ih => simpa [Expr.constants] using ih

/-- Code that is behind `d` registers takes those and the ones it needs, no more. -/
theorem ExprCode.peak_eq {d : Nat} {t : Register} (h : ExprCode S d k e t F r) : max d F.peak = d + e.need := by
  induction h with
  | literal | name => simp [Expr.need]
  | group _ ih => exact ih
  | folded hf | negated hf => simp [Expr.need, Expr.folded_binary, Expr.folded_unary, hf]
  | binary hf _ _ _ _ ihF ihG =>
    rw [Expr.need_binary hf]
    simp only [Fragment.peak_append, Scope.peak_kept, Fragment.peak_take, Fragment.peak_one]
    omega
  | minus hn _ _ _ ih =>
    rw [Expr.need_unary (by simp [Expr.folded_unary, hn])]
    simp only [Fragment.peak_append, Fragment.peak_take, Fragment.peak_constant, Fragment.peak_one]
    omega
  | bang _ _ _ ih =>
    rw [Expr.need_unary rfl]
    simp only [Fragment.peak_append, Fragment.peak_take, Fragment.peak_constant, Fragment.peak_one]
    omega
  | assign _ _ ih => simpa [Expr.need] using ih

theorem NextCode.load_eq {cells : Nat} (h : NextCode S cells k e F r) : F.consts.length = e.constants := by
  obtain ⟨-, G, hG, rfl⟩ := h
  simpa using hG.load_eq

theorem NextCode.peak_eq {cells : Nat} (h : NextCode S cells k e F r) : F.peak = cells + 1 + e.need := by
  obtain ⟨-, G, hG, rfl⟩ := h
  simpa using hG.peak_eq

end

mutual

theorem StmtCode.load_eq : ∀ {S : Scope} {k : Nat} {s : Stmt} {X : Fragment}, StmtCode S k s X →
    X.consts.length = Task.load s.tasks
  | _, _, _, _, .print hF => by simp [Stmt.tasks, Task.constants, Task.value?, hF.load_eq]
  | _, _, _, _, .declare _ => by simp [Stmt.tasks, Task.constants, Task.value?]
  | _, _, _, _, .init hF => by simp [Stmt.tasks, Task.constants, Task.value?, hF.load_eq]
  | _, _, _, _, .expr hF => by simp [Stmt.tasks, Task.constants, Task.value?, hF.load_eq]
  | _, _, _, _, .block hB => by simp only [Stmt.tasks, hB.load_eq]
  | _, _, _, _, .ifThen hF hY _ => by simp [Stmt.tasks, Task.constants, Task.value?, hF.load_eq, hY.load_eq]
  | _, _, _, _, .ifElse hF hY _ hN _ => by
    simp [Stmt.tasks, Task.constants, Task.value?, hF.load_eq, hY.load_eq, hN.load_eq]
  | _, _, _, _, .while hF hB _ _ => by simp [Stmt.tasks, Task.constants, Task.value?, hF.load_eq, hB.load_eq]
  | _, _, _, _, .ret => by simp [Stmt.tasks]
  | _, _, _, _, .func => by simp [Stmt.tasks]

theorem StmtsCode.load_eq : ∀ {S : Scope} {k : Nat} {l : List Stmt} {X : Fragment}, StmtsCode S k l X →
    X.consts.length = Task.load (Stmt.tasksAll l)
  | _, _, _, _, .nil => by simp [Stmt.tasksAll]
  | _, _, _, _, .cons hF hG => by simp [Stmt.tasksAll, hF.load_eq, hG.load_eq]

end

theorem Task.demand_evaluate (k : Nat) (e : Expr) (ts : List Task) :
    demand k (.evaluate e :: ts) = max (k + 1 + e.need) (demand k ts) := rfl

mutual

theorem StmtCode.peak_eq : ∀ {S : Scope} {k : Nat} {s : Stmt} {X : Fragment}, StmtCode S k s X →
    X.peak = Task.demand S.cells s.tasks
  | _, _, _, _, .print hF => by simp [Stmt.tasks, Task.demand_evaluate, Task.demand, hF.peak_eq]
  | _, _, _, _, .declare _ => by simp [Stmt.tasks, Task.demand, Task.need, Task.value?]
  | _, _, _, _, .init hF => by simp [Stmt.tasks, Task.demand, Task.need, Task.value?, hF.peak_eq]
  | _, _, _, _, .expr hF => by simp [Stmt.tasks, Task.demand_evaluate, Task.demand, hF.peak_eq]
  | _, _, _, _, .block hB => by simp only [Stmt.tasks, hB.peak_eq]
  | _, _, _, _, .ifThen hF hY _ => by simp [Stmt.tasks, Task.demand_evaluate, hF.peak_eq, hY.peak_eq]
  | _, _, _, _, .ifElse hF hY _ hN _ => by
    simp [Stmt.tasks, Task.demand_evaluate, Task.demand_append, Scope.after_eq, hF.peak_eq, hY.peak_eq, hN.peak_eq,
      Nat.max_assoc]
  | _, _, _, _, .while hF hB _ _ => by simp [Stmt.tasks, Task.demand_evaluate, hF.peak_eq, hB.peak_eq]
  | _, _, _, _, .ret => by simp [Stmt.tasks, Task.demand]
  | _, _, _, _, .func => by simp [Stmt.tasks, Task.demand]

theorem StmtsCode.peak_eq : ∀ {S : Scope} {k : Nat} {l : List Stmt} {X : Fragment}, StmtsCode S k l X →
    X.peak = Task.demand S.cells (Stmt.tasksAll l)
  | _, _, _, _, .nil => by simp [Stmt.tasksAll, Task.demand]
  | _, _, _, _, .cons hF hG => by simp [Stmt.tasksAll, Task.demand_append, Scope.after_eq, hF.peak_eq, hG.peak_eq]

end

end RegCode
