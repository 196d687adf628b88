import RegCode.Compile.Fold
import RegCode.Compile.Generator

/-!
# Compiling

Code for a program, in one pass. The value of an expression goes to a register of the caller's choice,
unless it is a variable, which stays where it is. Jumps are written before it is known how far they go,
and completed afterwards. Functions and returns are skipped with a notice.
-/

namespace RegCode

namespace Gen

/-- Whether evaluating an expression writes the register `r`, which some variable may be held in. -/
def assigns (env : Environment) (r : Register) : Expr → Bool
  | .assign _ n e => env.lookup n == some r || assigns env r e
  | .binary _ _ left right => assigns env r left || assigns env r right
  | .unary _ _ e => assigns env r e
  | .group _ e => assigns env r e
  | .literal .. | .name .. | .hole => false

/-- Sees to it that the value in `r` is still there after evaluating `e`: a variable that `e` assigns is
copied to `target`. -/
def keep (r target : Register) (e : Expr) : Gen Register := do
  if r != target && assigns (← get).env r e then
    copy target r
    return target
  return r

/-- Code that puts the value of an expression into `target`, or leaves it in the register of a variable;
the answer is the register it is in. -/
def expr : Expr → Register → Gen Register
  | .literal p v, target => do
    loadConst target v.const p.pos
    return target
  | .name p n, _ => resolve n p.pos
  | .group _ e, target => expr e target
  | .binary p op left right, target => do
    match Expr.fold? op left right with
    | some x => loadConst target (.float x) p.pos
    | none =>
      match op.operation? with
      | none => fail p.pos (.unknownBinary op.symbol)
      | some operation =>
        let l ← expr left target
        let l ← keep l target right
        let scratch ← alloc p.pos
        let r ← expr right scratch
        operate operation target l r
        free scratch
    return target
  | .unary p op e, target => do
    match op with
    | .minus =>
      match e.negate? with
      | some k => loadConst target k p.pos
      | none =>
        let r ← expr e target
        let zero ← alloc p.pos
        loadConst zero (.int 0) p.pos
        operate .sub target zero r
        free zero
    | .bang =>
      let r ← expr e target
      let zero ← alloc p.pos
      loadConst zero (.int 0) p.pos
      operate (.compare .eq) target r zero
      free zero
    | _ => fail p.pos (.unknownUnary op.symbol)
    return target
  | .assign p n e, target => do
    let r ← resolve n p.pos
    let v ← expr e target
    if v != r then copy r v
    return r
  | .hole, _ => throw .gap

/-- Code that goes on behind itself if a condition holds; the answer is the index of the jump that leaves
it otherwise. -/
def condition (e : Expr) (pos : Position) : Gen Nat := do
  let scratch ← alloc pos
  let r ← expr e scratch
  let exit ← jump .jmpIfNot r
  free scratch
  return exit

mutual

def stmt : Stmt → Gen Unit
  | .print p e => do
    enter p.pos
    let scratch ← alloc p.pos
    let r ← expr e scratch
    emit (.abc Op.print.code r 0 0)
    free scratch
  | .var p n namePos init => do
    enter p.pos
    let r ← alloc namePos
    declare n r
    match init with
    | none => return
    | some e =>
      let v ← expr e r
      if v != r then copy r v
  | .expr p e => do
    enter p.pos
    let scratch ← alloc p.pos
    let _ ← expr e scratch
    free scratch
  | .block p body => do
    enter p.pos
    stmts body
  | .ifThen p cond yes => do
    enter p.pos
    let exit ← condition cond p.pos
    stmt yes
    land exit (← count) p.pos
  | .ifElse p cond yes no => do
    enter p.pos
    let exit ← condition cond p.pos
    stmt yes
    let done ← jump .jmp 0
    land exit (← count) p.pos
    stmt no
    land done (← count) p.pos
  | .while p cond body => do
    enter p.pos
    let start ← count
    let exit ← condition cond p.pos
    stmt body
    let back ← jump .jmp 0
    land back start p.pos
    land exit (← count) p.pos
  | .func p n .. => do
    enter p.pos
    tell (.skippedFunction n p.pos.line)
  | .ret p _ => do
    enter p.pos
    tell (.skippedReturn p.pos.line)
  | .bad p message => do
    enter p.pos
    fail p.pos (.badStatement message)
  | .hole => throw .gap

def stmts : List Stmt → Gen Unit
  | [] => return
  | s :: rest => do
    stmt s
    stmts rest

end

def program (p : Program) : Gen Unit := do
  match p.firstBad? with
  | some (place, message) => fail place.pos (.badStatement message)
  | none =>
    stmts p.body
    emit (.abc Op.halt.code 0 0 0)
    modify fun g => { g with chunk := { g.chunk with registers := g.registers.high } }
    let g ← get
    tell (.compiled g.chunk.code.size g.chunk.consts.size g.registers.high g.registers.live
      g.env.length)

end Gen

structure Compilation where
  result : Except CompileFailure Chunk
  notices : List Notice

def compile (p : Program) : Compilation :=
  match (Gen.program p).run {} with
  | .ok _ g => ⟨.ok g.chunk, g.notices.toList⟩
  | .error f g => ⟨.error f, g.notices.toList⟩

structure Compiler where
  used : Bool := false

/-- Compiles a program, unless there was one before. -/
def Compiler.compile (c : Compiler) (p : Program) : Compilation × Compiler :=
  (if c.used then ⟨.error .alreadyUsed, []⟩ else RegCode.compile p, ⟨true⟩)

end RegCode
