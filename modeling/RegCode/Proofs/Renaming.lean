import Mathlib.Logic.Function.Basic
import RegCode.Compile

/-!
# Names do not matter

Variables may be given other names, as long as different ones stay different. The generator only asks whether two
names are the same: it looks names up, binds them anew, and sees whether an expression assigns a register. Each of
these comes out the same for the new names, so the two compilations go side by side, in states that differ in the
names of the environment only.
-/

namespace RegCode

variable {f : Bytes → Bytes}

/-! ## Programs with other names -/

def Expr.rename (f : Bytes → Bytes) : Expr → Expr
  | literal p v => literal p v
  | name p n => name p (f n)
  | binary p op left right => binary p op (left.rename f) (right.rename f)
  | unary p op e => unary p op (e.rename f)
  | group p e => group p (e.rename f)
  | assign p n e => assign p (f n) (e.rename f)
  | hole => hole

namespace Stmt

mutual

/-- The statement with other names for its variables. Functions and their parameters keep theirs. -/
def rename (f : Bytes → Bytes) : Stmt → Stmt
  | var p n q init => var p (f n) q (init.map (Expr.rename f))
  | print p e => print p (e.rename f)
  | expr p e => expr p (e.rename f)
  | block p body => block p (renameAll f body)
  | ifThen p e yes => ifThen p (e.rename f) (yes.rename f)
  | ifElse p e yes no => ifElse p (e.rename f) (yes.rename f) (no.rename f)
  | .while p e body => .while p (e.rename f) (body.rename f)
  | ret p value => ret p (value.map (Expr.rename f))
  | func p n q ps body => func p n q ps (renameAll f body)
  | bad p message => bad p message
  | hole => hole

def renameAll (f : Bytes → Bytes) : List Stmt → List Stmt
  | [] => []
  | s :: rest => s.rename f :: renameAll f rest

end

end Stmt

def Program.rename (f : Bytes → Bytes) (p : Program) : Program := ⟨Stmt.renameAll f p.body, p.span⟩

/-! ## States with other names -/

def Environment.rename (f : Bytes → Bytes) (env : Environment) : Environment := env.map fun b => (f b.1, b.2)

def Generator.rename (f : Bytes → Bytes) (g : Generator) : Generator := { g with env := g.env.rename f }

def CompileFault.rename (f : Bytes → Bytes) : CompileFault → CompileFault
  | undefinedVariable n => undefinedVariable (f n)
  | x => x

def CompileFailure.rename (f : Bytes → Bytes) : CompileFailure → CompileFailure
  | error e => error { e with fault := e.fault.rename f }
  | x => x

theorem Environment.lookup_rename (hf : f.Injective) (env : Environment) (n : Bytes) :
    (env.rename f).lookup (f n) = env.lookup n := by
  induction env with
  | nil => rfl
  | cons b env ih =>
    have hb : (f n == f b.1) = (n == b.1) := by rw [Bool.eq_iff_iff, beq_iff_eq, beq_iff_eq, hf.eq_iff]
    change ((f b.1, b.2) :: Environment.rename f env).lookup (f n) = (b :: env).lookup n
    rw [List.lookup_cons, List.lookup_cons, hb, ih]

/-- A name that is bound anew loses the register it had, under either name. -/
theorem Environment.bind_rename (hf : f.Injective) (env : Environment) (n : Bytes) (r : Register) :
    (env.rename f).bind (f n) r = (env.bind n r).rename f := by
  have hne (b : Bytes × Register) : (f b.1 != f n) = (b.1 != n) := by
    rw [Bool.eq_iff_iff, bne_iff_ne, bne_iff_ne, hf.ne_iff]
  unfold Environment.bind Environment.rename
  rw [List.map_cons, List.filter_map]
  simp only [Function.comp_def, hne]

theorem CompileFault.kind_rename (x : CompileFault) : (x.rename f).kind = x.kind := by
  cases x <;> rfl

theorem CompileFault.name_rename (x : CompileFault) :
    (x.rename f).name = if x.kind = .undefinedVariable then f x.name else x.name := by
  cases x <;> rfl

/-! ## Steps side by side -/

namespace Gen

def renamed {α : Type} (f : Bytes → Bytes) :
    EStateM.Result CompileFailure Generator α → EStateM.Result CompileFailure Generator α
  | .ok a g => .ok a (g.rename f)
  | .error e g => .error (e.rename f) (g.rename f)

/-- With other names in the state the second step comes to the outcome of the first, with the other names. -/
def Renames {α : Type} (f : Bytes → Bytes) (x x' : Gen α) : Prop :=
  ∀ g : Generator, x' (g.rename f) = renamed f (x g)

/-- The step does the same whatever the names are. -/
abbrev Blind {α : Type} (f : Bytes → Bytes) (x : Gen α) : Prop := Renames f x x

section
variable {α β : Type}

theorem Renames.bind {x x' : Gen α} {k k' : α → Gen β} (hx : Renames f x x') (hk : ∀ a, Renames f (k a) (k' a)) :
    Renames f (x >>= k) (x' >>= k') := by
  intro g
  change EStateM.bind x' k' (g.rename f) = renamed f (EStateM.bind x k g)
  unfold EStateM.bind
  rw [hx g]
  cases x g with
  | ok a g₁ => exact hk a g₁
  | error e g₁ => rfl

theorem renames_pure (a : α) : Blind f (pure a) := fun _ => rfl

theorem renames_throw (e : CompileFailure) : Renames f (throw e : Gen α) (throw (e.rename f)) := fun _ => rfl

theorem renames_modify {u u' : Generator → Generator} (h : ∀ g, u' (g.rename f) = (u g).rename f) :
    Renames f (modify u) (modify u') :=
  fun g => congrArg (EStateM.Result.ok ()) (h g)

theorem renames_get {k k' : Generator → Gen α} (h : ∀ g, Renames f (k g) (k' (g.rename f))) :
    Renames f (get >>= k) (get >>= k') :=
  fun g => h g g

end

theorem emit_renames (i : Instruction) : Blind f (emit i) := renames_modify fun _ => rfl

theorem count_renames : Blind f count := renames_get fun _ => renames_pure _

theorem tell_renames (n : Notice) : Blind f (tell n) := renames_modify fun _ => rfl

theorem enter_renames (pos : Position) : Blind f (enter pos) := by
  refine renames_modify fun g => ?_
  split <;> rfl

theorem alloc_renames (pos : Position) : Blind f (alloc pos) := by
  refine renames_get fun g => ?_
  dsimp only [Generator.rename]
  cases g.registers.alloc with
  | none => exact renames_throw _
  | some q =>
    refine (renames_modify fun g => ?_).bind fun _ => renames_pure _
    rfl

theorem free_renames (r : Register) : Blind f (free r) := by
  refine renames_get fun g => ?_
  dsimp only [Generator.rename]
  cases g.registers.free r with
  | ok s => exact renames_modify fun _ => rfl
  | error x => exact renames_throw _

theorem loadConst_renames (t : Register) (k : Const) (pos : Position) : Blind f (loadConst t k pos) := by
  refine renames_get fun g => ?_
  have hload (i : Nat) : Blind f (do
      modify fun g => { g with chunk := g.chunk.addConst (.const k) }
      emit (.abx Op.loadK.code t (UInt16.ofNat i))) := by
    refine (renames_modify fun g => ?_).bind fun _ => emit_renames _
    rfl
  dsimp only [Generator.rename]
  split
  · exact (renames_throw _).bind fun _ => hload _
  · exact hload _

theorem jump_renames (op : Op) (a : Register) : Blind f (jump op a) :=
  count_renames.bind fun i => (emit_renames _).bind fun _ => renames_pure i

theorem land_renames (index target : Nat) (pos : Position) : Blind f (land index target pos) := by
  unfold land
  by_cases hd : (target : Int) - index < -32768 ∨ 32767 < (target : Int) - index
  · simp only [if_pos hd]
    exact fun _ => rfl
  · simp only [if_neg hd]
    refine renames_get fun g => ?_
    dsimp only [Generator.rename]
    cases g.chunk.patchFault? index with
    | some x => exact renames_throw _
    | none => exact renames_modify fun _ => rfl

/-! ## Names looked up and bound -/

theorem declare_renames (hf : f.Injective) (n : Bytes) (r : Register) :
    Renames f (declare n r) (declare (f n) r) := by
  refine renames_modify fun g => ?_
  unfold Generator.rename
  rw [Environment.bind_rename hf]

theorem resolve_renames (hf : f.Injective) (n : Bytes) (pos : Position) :
    Renames f (resolve n pos) (resolve (f n) pos) := by
  refine renames_get fun g => ?_
  dsimp only [Generator.rename]
  rw [Environment.lookup_rename hf]
  cases g.env.lookup n with
  | some r => exact renames_pure r
  | none => exact renames_throw _

theorem assigns_rename (hf : f.Injective) (env : Environment) (r : Register) (e : Expr) :
    assigns (env.rename f) r (e.rename f) = assigns env r e := by
  induction e with
  | assign p n e ih => simp only [Expr.rename, assigns, ih, Environment.lookup_rename hf]
  | binary p op left right ihl ihr => simp only [Expr.rename, assigns, ihl, ihr]
  | unary p op e ih => simp only [Expr.rename, assigns, ih]
  | group p e ih => simp only [Expr.rename, assigns, ih]
  | literal | name | hole => rfl

theorem keep_renames (hf : f.Injective) (r t : Register) (e : Expr) :
    Renames f (keep r t e) (keep r t (e.rename f)) := by
  refine renames_get fun g => ?_
  dsimp only [Generator.rename]
  rw [assigns_rename hf]
  split
  · exact (emit_renames _).bind fun _ => renames_pure t
  · exact renames_pure r

/-! ## Expressions -/

theorem fold?_rename (op : Kind) (left right : Expr) :
    Expr.fold? op (left.rename f) (right.rename f) = Expr.fold? op left right := by
  have hnumber (e : Expr) : (e.rename f).number? = e.number? := by cases e <;> rfl
  unfold Expr.fold?
  rw [hnumber, hnumber]

theorem negate?_rename (e : Expr) : (e.rename f).negate? = e.negate? := by
  cases e <;> rfl

theorem zero_renames (pos : Position) (o : Op) (t : Register) (x y : Register → Register) :
    Blind f (do
      let zero ← alloc pos
      loadConst zero (.int 0) pos
      operate o t (x zero) (y zero)
      free zero
      return t : Gen Register) :=
  (alloc_renames pos).bind fun zero => (loadConst_renames zero (.int 0) pos).bind fun _ =>
    (emit_renames _).bind fun _ => (free_renames zero).bind fun _ => renames_pure t

theorem move_renames (t a : Register) : Blind f (if a != t then copy t a else pure () : Gen Unit) := by
  split
  · exact emit_renames _
  · exact renames_pure ()

theorem expr_renames (hf : f.Injective) (e : Expr) :
    ∀ t : Register, Renames f (expr e t) (expr (e.rename f) t) := by
  induction e with
  | literal p v => exact fun t => (loadConst_renames t v.const p.pos).bind fun _ => renames_pure t
  | name p n => exact fun t => resolve_renames hf n p.pos
  | group p e ih => exact ih
  | binary p op left right ihl ihr =>
    intro t
    unfold Expr.rename expr
    rw [fold?_rename]
    cases Expr.fold? op left right with
    | some x => exact (loadConst_renames t _ p.pos).bind fun _ => renames_pure t
    | none =>
      cases op.operation? with
      | none => exact (renames_throw _).bind fun _ => renames_pure t
      | some o =>
        refine (ihl t).bind fun a => (keep_renames hf a t right).bind fun q =>
          (alloc_renames p.pos).bind fun d => ?_
        refine (ihr d).bind fun b => (emit_renames _).bind fun _ => ?_
        exact (free_renames d).bind fun _ => renames_pure t
  | unary p op e ih =>
    intro t
    unfold Expr.rename expr
    split
    · rw [negate?_rename]
      cases e.negate? with
      | some k => exact (loadConst_renames t k p.pos).bind fun _ => renames_pure t
      | none => exact (ih t).bind fun a => zero_renames p.pos .sub t (fun z => z) fun _ => a
    · exact (ih t).bind fun a => zero_renames p.pos (.compare .eq) t (fun _ => a) fun z => z
    · exact (renames_throw _).bind fun _ => renames_pure t
  | assign p n e ih =>
    intro t
    refine (resolve_renames hf n p.pos).bind fun r => (ih t).bind fun v => ?_
    split
    · exact (emit_renames _).bind fun _ => renames_pure r
    · exact renames_pure r
  | hole => exact fun t => renames_throw .gap

/-! ## Statements -/

theorem condition_renames (hf : f.Injective) (e : Expr) (pos : Position) :
    Renames f (condition e pos) (condition (e.rename f) pos) :=
  (alloc_renames pos).bind fun t => (expr_renames hf e t).bind fun r => (jump_renames .jmpIfNot r).bind fun exit =>
    (free_renames t).bind fun _ => renames_pure exit

mutual

theorem stmt_renames (hf : f.Injective) : ∀ s : Stmt, Renames f (stmt s) (stmt (s.rename f))
  | .print p e => (enter_renames p.pos).bind fun _ => (alloc_renames p.pos).bind fun t =>
      (expr_renames hf e t).bind fun _ => (emit_renames _).bind fun _ => free_renames t
  | .var p n q none => (enter_renames p.pos).bind fun _ => (alloc_renames q).bind fun r =>
      (declare_renames hf n r).bind fun _ => renames_pure ()
  | .var p n q (some e) => (enter_renames p.pos).bind fun _ => (alloc_renames q).bind fun r =>
      (declare_renames hf n r).bind fun _ => (expr_renames hf e r).bind fun v => move_renames r v
  | .expr p e => (enter_renames p.pos).bind fun _ => (alloc_renames p.pos).bind fun t =>
      (expr_renames hf e t).bind fun _ => free_renames t
  | .block p body => (enter_renames p.pos).bind fun _ => stmts_renames hf body
  | .ifThen p e yes => (enter_renames p.pos).bind fun _ => (condition_renames hf e p.pos).bind fun exit =>
      (stmt_renames hf yes).bind fun _ => count_renames.bind fun n => land_renames exit n p.pos
  | .ifElse p e yes no => (enter_renames p.pos).bind fun _ => (condition_renames hf e p.pos).bind fun exit =>
      (stmt_renames hf yes).bind fun _ => (jump_renames .jmp 0).bind fun done => count_renames.bind fun n =>
        (land_renames exit n p.pos).bind fun _ => (stmt_renames hf no).bind fun _ => count_renames.bind fun m =>
          land_renames done m p.pos
  | .while p e body => (enter_renames p.pos).bind fun _ => count_renames.bind fun start =>
      (condition_renames hf e p.pos).bind fun exit => (stmt_renames hf body).bind fun _ =>
        (jump_renames .jmp 0).bind fun back => (land_renames back start p.pos).bind fun _ =>
          count_renames.bind fun n => land_renames exit n p.pos
  | .func p .. => (enter_renames p.pos).bind fun _ => tell_renames _
  | .ret p _ => (enter_renames p.pos).bind fun _ => tell_renames _
  | .bad p _ => (enter_renames p.pos).bind fun _ => renames_throw _
  | .hole => renames_throw .gap

theorem stmts_renames (hf : f.Injective) : ∀ l : List Stmt, Renames f (stmts l) (stmts (Stmt.renameAll f l))
  | [] => renames_pure ()
  | s :: rest => (stmt_renames hf s).bind fun _ => stmts_renames hf rest

end

end Gen

/-! ## Programs -/

namespace Stmt

mutual

theorem visitOnto_rename : ∀ (acc : List Stmt) (s : Stmt),
    visitOnto (acc.map (rename f)) (s.rename f) = (visitOnto acc s).map (rename f)
  | acc, .block _ body => visitAllOnto_rename (.block _ body :: acc) body
  | acc, .func _ _ _ _ body => visitAllOnto_rename (.func _ _ _ _ body :: acc) body
  | acc, .ifThen _ _ yes => visitOnto_rename (.ifThen _ _ yes :: acc) yes
  | acc, .ifElse p e yes no => by
    have h := visitOnto_rename (.ifElse p e yes no :: acc) yes
    simp only [rename, visitOnto, List.map_cons] at h ⊢
    rw [h, visitOnto_rename _ no]
  | acc, .while _ _ body => visitOnto_rename (.while _ _ body :: acc) body
  | acc, .var .. | acc, .print .. | acc, .expr .. | acc, .ret .. | acc, .bad .. | acc, .hole => rfl

theorem visitAllOnto_rename : ∀ acc l : List Stmt,
    visitAllOnto (acc.map (rename f)) (renameAll f l) = (visitAllOnto acc l).map (rename f)
  | acc, [] => rfl
  | acc, s :: rest => by rw [renameAll, visitAllOnto, visitAllOnto, visitOnto_rename, visitAllOnto_rename _ rest]

end

end Stmt

theorem Program.firstBad?_rename (p : Program) : (p.rename f).firstBad? = p.firstBad? := by
  have hbad (s : Stmt) : (s.rename f).bad? = s.bad? := by cases s <;> rfl
  have hvisited : Stmt.visited (p.rename f).body = (Stmt.visited p.body).map (Stmt.rename f) := by
    unfold Stmt.visited Program.rename
    rw [List.map_reverse, ← Stmt.visitAllOnto_rename]
    rfl
  unfold firstBad?
  rw [hvisited, List.findSome?_map]
  exact congrArg ((Stmt.visited p.body).findSome? ·) (funext hbad)

theorem program_renames (hf : f.Injective) (p : Program) :
    Gen.Renames f (Gen.program p) (Gen.program (p.rename f)) := by
  unfold Gen.program
  rw [p.firstBad?_rename]
  cases p.firstBad? with
  | some bad => exact Gen.renames_throw _
  | none =>
    refine (Gen.stmts_renames hf p.body).bind fun _ => (Gen.emit_renames _).bind fun _ => ?_
    refine (Gen.renames_modify fun g => ?_).bind fun _ => Gen.renames_get fun g => ?_
    · rfl
    · have hlength : (g.rename f).env.length = g.env.length := List.length_map _
      rw [hlength]
      exact Gen.tell_renames _

theorem compile_rename (hf : f.Injective) (p : Program) :
    compile (p.rename f) = ⟨(compile p).result.mapError (CompileFailure.rename f), (compile p).notices⟩ := by
  have h : (Gen.program (p.rename f)).run {} = Gen.renamed f ((Gen.program p).run {}) := program_renames hf p {}
  unfold compile
  rw [h]
  cases (Gen.program p).run {} with
  | ok u g => rfl
  | error x g => rfl

/-- Other names for the variables of a program, different ones for different variables, are of no consequence:
either both programs compile, to the same chunk, or both fail, at the same place and for the same reason. Only an
undefined variable is reported under its other name. What is told on the way is the same as well. -/
theorem names_immaterial (f : Bytes → Bytes) (hf : f.Injective) (p : Program) :
    ((∃ c, (compile p).result = .ok c ∧ (compile (p.rename f)).result = .ok c) ∨
      (∃ e e', (compile p).result = .error (.error e) ∧ (compile (p.rename f)).result = .error (.error e') ∧
        e'.fault.kind = e.fault.kind ∧ e'.pos = e.pos ∧
        e'.fault.name = if e.fault.kind = .undefinedVariable then f e.fault.name else e.fault.name) ∨
      ∃ x, (∀ e, x ≠ .error e) ∧ (compile p).result = .error x ∧ (compile (p.rename f)).result = .error x) ∧
    (compile (p.rename f)).notices = (compile p).notices := by
  rw [compile_rename hf p]
  refine ⟨?_, rfl⟩
  cases (compile p).result with
  | ok c => exact .inl ⟨c, rfl, rfl⟩
  | error x =>
    cases x with
    | error e => exact .inr (.inl ⟨e, _, rfl, rfl, e.fault.kind_rename, rfl, e.fault.name_rename⟩)
    | alreadyUsed | register | jump | gap =>
      refine .inr (.inr ⟨_, fun e he => ?_, rfl, rfl⟩)
      cases he

/-- The program `var x = 1; { var x = x + (x = 2); } print x;`. -/
def shadowed : Program where
  body := [.var {} [120] {} (some (.literal {} (.int 1))),
    .block {} [.var {} [120] {} (some (.binary {} .plus (.name {} [120])
      (.group {} (.assign {} [120] (.literal {} (.int 2))))))],
    .print {} (.name {} [120])]

/-- The program `var x = 1; print x - y;`. -/
def unbound : Program where
  body := [.var {} [120] {} (some (.literal {} (.int 1))),
    .print {} (.binary {} .minus (.name {} [120]) (.name {} [121]))]

/-- The two programs with a letter in front of every name. -/
theorem shadowed_same_code : (List.cons (95 : UInt8)).Injective ∧
    (∃ c, (compile shadowed).result = .ok c ∧ (compile (shadowed.rename (List.cons 95))).result = .ok c) ∧
    ∃ e e', (compile unbound).result = .error (.error e) ∧
      (compile (unbound.rename (List.cons 95))).result = .error (.error e') ∧
      e'.fault.kind = .undefinedVariable ∧ e.fault.name = [121] ∧ e'.fault.name = [95, 121] := by
  have hf : (List.cons (95 : UInt8)).Injective := fun _ _ h => (List.cons.inj h).2
  have hok : (compile shadowed).result.toBool = true := by decide +kernel
  have herr : (compile unbound).result = .error (.error ⟨{}, .undefinedVariable [121]⟩) := by rfl
  refine ⟨hf, ?_, ?_⟩
  · rcases (names_immaterial (List.cons 95) hf shadowed).1 with h | ⟨e, e', he, -⟩ | ⟨x, -, hx, -⟩
    · exact h
    · rw [he] at hok
      cases hok
    · rw [hx] at hok
      cases hok
  · rcases (names_immaterial (List.cons 95) hf unbound).1 with
      ⟨c, hc, -⟩ | ⟨e, e', he, he', hk, -, hn⟩ | ⟨x, hx, hx', -⟩
    · rw [herr] at hc
      cases hc
    · obtain rfl : ⟨{}, .undefinedVariable [121]⟩ = e := by
        rw [herr] at he
        exact CompileFailure.error.inj (Except.error.inj he)
      exact ⟨_, e', he, he', hk, rfl, hn⟩
    · rw [herr] at hx'
      exact absurd (Except.error.inj hx').symm (hx _)

end RegCode
