import RegCode.Proofs.Alike
import RegCode.Proofs.Failure

/-!
# Code does not depend on places

Two texts with the same tokens, wherever the tokens stand, have the same errors, and where there are none they have
the same code. The parser makes trees of them that differ in their places only. Of a place the generator takes the
line, which goes into the table of lines and into notices, and the position of an error; no decision hangs on
either.
-/

namespace RegCode

/-! ## States that are alike -/

/-- The chunk without the table of its lines. -/
def Chunk.bare (c : Chunk) : Chunk := { c with lines := #[] }

def CompileFailure.bare : CompileFailure → CompileFailure
  | error e => error { e with pos := {} }
  | f => f

theorem Chunk.registers_write (c : Chunk) (i : Instruction) (line : Int) :
    (c.write i line).registers = c.registers := by
  unfold Chunk.write
  split <;> rfl

/-- The two states differ in lines and notices only. -/
structure Generator.Alike (g g' : Generator) : Prop where
  code : g.chunk.code = g'.chunk.code
  consts : g.chunk.consts = g'.chunk.consts
  high : g.chunk.registers = g'.chunk.registers
  registers : g.registers = g'.registers
  env : g.env = g'.env

namespace Gen

/-- The two outcomes are the same value, or the same failure, in states that are alike. -/
inductive Same {α : Type} : EStateM.Result CompileFailure Generator α → EStateM.Result CompileFailure Generator α →
    Prop where
  | ok {a : α} {g g' : Generator} : g.Alike g' → Same (.ok a g) (.ok a g')
  | error {f f' : CompileFailure} {g g' : Generator} :
      f.bare = f'.bare → g.Alike g' → Same (.error f g) (.error f' g')

/-- In states that are alike the two steps do the same. -/
def Alike {α : Type} (x x' : Gen α) : Prop := ∀ ⦃g g' : Generator⦄, g.Alike g' → Same (x g) (x' g')

/-- In states that are alike the step does the same. -/
abbrev Steady {α : Type} (x : Gen α) : Prop := Alike x x

section
variable {α β : Type}

theorem Alike.bind {x x' : Gen α} {f f' : α → Gen β} (hx : Alike x x') (hf : ∀ a, Alike (f a) (f' a)) :
    Alike (x >>= f) (x' >>= f') := by
  intro g g' h
  have hr := hx h
  change Same (EStateM.bind x f g) (EStateM.bind x' f' g')
  unfold EStateM.bind
  revert hr
  generalize x g = r
  generalize x' g' = r'
  rintro (hg | ⟨he, hg⟩)
  · exact hf _ hg
  · exact .error he hg

theorem alike_pure (a : α) : Steady (pure a) := fun _ _ h => .ok h

theorem alike_throw {f f' : CompileFailure} (h : f.bare = f'.bare) : Alike (throw f : Gen α) (throw f') :=
  fun _ _ hg => .error h hg

theorem alike_fail (pos pos' : Position) (f : CompileFault) : Alike (fail pos f : Gen α) (fail pos' f) :=
  alike_throw rfl

theorem alike_modify {f f' : Generator → Generator} (h : ∀ g g', g.Alike g' → (f g).Alike (f' g')) :
    Alike (modify f) (modify f') :=
  fun g g' hg => .ok (h g g' hg)

theorem alike_get {f f' : Generator → Gen α} (h : ∀ g g', g.Alike g' → Alike (f g) (f' g')) :
    Alike (get >>= f) (get >>= f') :=
  fun g g' hg => h g g' hg hg

end

theorem emit_alike (i : Instruction) : Steady (emit i) := by
  refine alike_modify fun g g' h => ⟨?_, ?_, ?_, h.registers, h.env⟩
  · simp only [Chunk.code_write, h.code]
  · simp only [Chunk.consts_write, h.consts]
  · simp only [Chunk.registers_write, h.high]

theorem count_alike : Steady count := by
  refine alike_get fun g g' h => ?_
  rw [h.code]
  exact alike_pure _

theorem tell_alike (n n' : Notice) : Alike (tell n) (tell n') :=
  alike_modify fun _ _ h => ⟨h.code, h.consts, h.high, h.registers, h.env⟩

theorem enter_alike (pos pos' : Position) : Alike (enter pos) (enter pos') := by
  have hline (pos : Position) (g : Generator) :
      (if 0 < pos.line then { g with line := pos.line } else g).Alike g := by
    split <;> exact ⟨rfl, rfl, rfl, rfl, rfl⟩
  refine alike_modify fun g g' h => ?_
  obtain ⟨h₁, h₂, h₃, h₄, h₅⟩ := hline pos g
  obtain ⟨h₁', h₂', h₃', h₄', h₅'⟩ := hline pos' g'
  exact ⟨(h₁.trans h.code).trans h₁'.symm, (h₂.trans h.consts).trans h₂'.symm, (h₃.trans h.high).trans h₃'.symm,
    (h₄.trans h.registers).trans h₄'.symm, (h₅.trans h.env).trans h₅'.symm⟩

theorem alloc_alike (pos pos' : Position) : Alike (alloc pos) (alloc pos') := by
  refine alike_get fun g g' h => ?_
  rw [h.registers]
  cases g'.registers.alloc with
  | none => exact alike_fail pos pos' _
  | some p =>
    refine (alike_modify fun g g' h => ?_).bind fun _ => alike_pure _
    exact ⟨h.code, h.consts, h.high, rfl, h.env⟩

theorem free_alike (r : Register) : Steady (free r) := by
  refine alike_get fun g g' h => ?_
  rw [h.registers]
  cases g'.registers.free r with
  | ok s => exact alike_modify fun g g' h => ⟨h.code, h.consts, h.high, rfl, h.env⟩
  | error f => exact alike_throw rfl

theorem declare_alike (n : Bytes) (r : Register) : Steady (declare n r) :=
  alike_modify fun g g' h => ⟨h.code, h.consts, h.high, h.registers, by simp only [h.env]⟩

theorem resolve_alike (n : Bytes) (pos pos' : Position) : Alike (resolve n pos) (resolve n pos') := by
  refine alike_get fun g g' h => ?_
  rw [h.env]
  cases g'.env.lookup n with
  | some r => exact alike_pure r
  | none => exact alike_fail pos pos' _

theorem loadConst_alike (t : Register) (k : Const) (pos pos' : Position) :
    Alike (loadConst t k pos) (loadConst t k pos') := by
  refine alike_get fun g g' h => ?_
  rw [h.consts]
  have hload (i : Nat) : Steady (do
      modify fun g => { g with chunk := g.chunk.addConst (.const k) }
      emit (.abx Op.loadK.code t (UInt16.ofNat i))) := by
    refine (alike_modify fun g g' h => ?_).bind fun _ => emit_alike _
    exact ⟨h.code, by simp only [Chunk.addConst, h.consts], h.high, h.registers, h.env⟩
  by_cases hk : maxConsts ≤ g'.chunk.consts.size
  · simp only [if_pos hk]
    exact (alike_fail pos pos' _).bind fun _ => hload _
  · simp only [if_neg hk]
    exact hload _

theorem jump_alike (op : Op) (a : Register) : Steady (jump op a) :=
  count_alike.bind fun i => (emit_alike _).bind fun _ => alike_pure i

theorem patch_alike (index : Nat) (d : Int) : Steady (α := Unit) (do
    match (← get).chunk.patchFault? index with
    | some f => throw (.jump f)
    | none => modify fun g => { g with chunk := g.chunk.setSbx index (Int16.ofInt d) }) := by
  refine alike_get fun g g' h => ?_
  have hfault : g.chunk.patchFault? index = g'.chunk.patchFault? index := by
    simp only [Chunk.patchFault?, h.code]
  rw [hfault]
  cases g'.chunk.patchFault? index with
  | some f => exact alike_throw rfl
  | none =>
    refine alike_modify fun g g' h => ⟨?_, h.consts, h.high, h.registers, h.env⟩
    simp only [Chunk.setSbx, h.code]

theorem land_alike (index target : Nat) (pos pos' : Position) :
    Alike (land index target pos) (land index target pos') := by
  unfold land
  by_cases hd : (target : Int) - index < -32768 ∨ 32767 < (target : Int) - index
  · simp only [if_pos hd]
    exact (alike_fail pos pos' _).bind fun _ => patch_alike index _
  · simp only [if_neg hd]
    exact patch_alike index _

/-! ## Expressions -/

theorem number?_bare (e : Expr) : e.bare.number? = e.number? := by
  cases e <;> rfl

theorem fold?_bare (op : Kind) (left right : Expr) :
    Expr.fold? op left.bare right.bare = Expr.fold? op left right := by
  unfold Expr.fold?
  rw [number?_bare, number?_bare]

theorem negate?_bare (e : Expr) : e.bare.negate? = e.negate? := by
  cases e with
  | literal p v => cases v <;> rfl
  | _ => rfl

theorem assigns_bare (env : Environment) (r : Register) (e : Expr) : assigns env r e.bare = assigns env r e := by
  induction e with
  | assign p n e ih => simp only [Expr.bare, assigns, ih]
  | binary p op left right ihl ihr => simp only [Expr.bare, assigns, ihl, ihr]
  | unary p op e ih => simp only [Expr.bare, assigns, ih]
  | group p e ih => simp only [Expr.bare, assigns, ih]
  | literal | name | hole => rfl

theorem keep_alike (r t : Register) (e : Expr) : Alike (keep r t e) (keep r t e.bare) := by
  refine alike_get fun g g' h => ?_
  rw [assigns_bare, h.env]
  split
  · exact (emit_alike _).bind fun _ => alike_pure t
  · exact alike_pure r

theorem zero_alike (pos pos' : Position) (o : Op) (t : Register) (x y : Register → Register) :
    Alike (do
      let zero ← alloc pos
      loadConst zero (.int 0) pos
      operate o t (x zero) (y zero)
      free zero
      return t : Gen Register) (do
      let zero ← alloc pos'
      loadConst zero (.int 0) pos'
      operate o t (x zero) (y zero)
      free zero
      return t) :=
  (alloc_alike pos pos').bind fun zero => (loadConst_alike zero (.int 0) pos pos').bind fun _ =>
    (emit_alike _).bind fun _ => (free_alike zero).bind fun _ => alike_pure t

theorem move_alike (t a : Register) : Steady (if a != t then copy t a else pure () : Gen Unit) := by
  split
  · exact emit_alike _
  · exact alike_pure ()

theorem expr_alike (e : Expr) : ∀ t : Register, Alike (expr e t) (expr e.bare t) := by
  induction e with
  | literal p v => exact fun t => (loadConst_alike t v.const p.pos _).bind fun _ => alike_pure t
  | name p n => exact fun t => resolve_alike n p.pos _
  | group p e ih => exact ih
  | binary p op left right ihl ihr =>
    intro t
    unfold Expr.bare expr
    rw [fold?_bare]
    cases Expr.fold? op left right with
    | some x => exact (loadConst_alike t _ p.pos _).bind fun _ => alike_pure t
    | none =>
      cases op.operation? with
      | none => exact (alike_fail p.pos _ _).bind fun _ => alike_pure t
      | some o =>
        refine (ihl t).bind fun a => (keep_alike a t right).bind fun q =>
          (alloc_alike p.pos _).bind fun scratch => ?_
        refine (ihr scratch).bind fun b => (emit_alike _).bind fun _ => ?_
        exact (free_alike scratch).bind fun _ => alike_pure t
  | unary p op e ih =>
    intro t
    unfold Expr.bare expr
    split
    · rw [negate?_bare]
      cases e.negate? with
      | some k => exact (loadConst_alike t k p.pos _).bind fun _ => alike_pure t
      | none => exact (ih t).bind fun a => zero_alike p.pos _ .sub t (fun z => z) fun _ => a
    · exact (ih t).bind fun a => zero_alike p.pos _ (.compare .eq) t (fun _ => a) fun z => z
    · exact (alike_fail p.pos _ _).bind fun _ => alike_pure t
  | assign p n e ih =>
    intro t
    refine (resolve_alike n p.pos _).bind fun r => (ih t).bind fun v => ?_
    split
    · exact (emit_alike _).bind fun _ => alike_pure r
    · exact alike_pure r
  | hole => exact fun t => alike_throw rfl

/-! ## Statements -/

theorem condition_alike (e : Expr) (pos pos' : Position) : Alike (condition e pos) (condition e.bare pos') :=
  (alloc_alike pos pos').bind fun t => (expr_alike e t).bind fun r => (jump_alike .jmpIfNot r).bind fun exit =>
    (free_alike t).bind fun _ => alike_pure exit

mutual

theorem stmt_alike : ∀ s : Stmt, Alike (stmt s) (stmt s.bare)
  | .print p e => (enter_alike p.pos _).bind fun _ => (alloc_alike p.pos _).bind fun t =>
      (expr_alike e t).bind fun _ => (emit_alike _).bind fun _ => free_alike t
  | .var p n q none => (enter_alike p.pos _).bind fun _ => (alloc_alike q _).bind fun r =>
      (declare_alike n r).bind fun _ => alike_pure ()
  | .var p n q (some e) => (enter_alike p.pos _).bind fun _ => (alloc_alike q _).bind fun r =>
      (declare_alike n r).bind fun _ => (expr_alike e r).bind fun v => move_alike r v
  | .expr p e => (enter_alike p.pos _).bind fun _ => (alloc_alike p.pos _).bind fun t =>
      (expr_alike e t).bind fun _ => free_alike t
  | .block p body => (enter_alike p.pos _).bind fun _ => stmts_alike body
  | .ifThen p e yes => (enter_alike p.pos _).bind fun _ => (condition_alike e p.pos _).bind fun exit =>
      (stmt_alike yes).bind fun _ => count_alike.bind fun n => land_alike exit n p.pos _
  | .ifElse p e yes no => (enter_alike p.pos _).bind fun _ => (condition_alike e p.pos _).bind fun exit =>
      (stmt_alike yes).bind fun _ => (jump_alike .jmp 0).bind fun done => count_alike.bind fun n =>
        (land_alike exit n p.pos _).bind fun _ => (stmt_alike no).bind fun _ => count_alike.bind fun m =>
          land_alike done m p.pos _
  | .while p e body => (enter_alike p.pos _).bind fun _ => count_alike.bind fun start =>
      (condition_alike e p.pos _).bind fun exit => (stmt_alike body).bind fun _ =>
        (jump_alike .jmp 0).bind fun back => (land_alike back start p.pos _).bind fun _ =>
          count_alike.bind fun n => land_alike exit n p.pos _
  | .func p .. => (enter_alike p.pos _).bind fun _ => tell_alike _ _
  | .ret p _ => (enter_alike p.pos _).bind fun _ => tell_alike _ _
  | .bad p _ => (enter_alike p.pos _).bind fun _ => alike_fail p.pos _ _
  | .hole => alike_throw rfl

theorem stmts_alike : ∀ l : List Stmt, Alike (stmts l) (stmts (Stmt.bareAll l))
  | [] => alike_pure ()
  | s :: rest => (stmt_alike s).bind fun _ => stmts_alike rest

end

end Gen

/-! ## Programs -/

namespace Stmt

mutual

theorem visitOnto_bare : ∀ (acc : List Stmt) (s : Stmt),
    visitOnto (acc.map bare) s.bare = (visitOnto acc s).map bare
  | acc, .block _ body => visitAllOnto_bare (.block _ body :: acc) body
  | acc, .func _ _ _ _ body => visitAllOnto_bare (.func _ _ _ _ body :: acc) body
  | acc, .ifThen _ _ yes => visitOnto_bare (.ifThen _ _ yes :: acc) yes
  | acc, .ifElse p e yes no => by
    have h := visitOnto_bare (.ifElse p e yes no :: acc) yes
    simp only [bare, visitOnto, List.map_cons] at h ⊢
    rw [h, visitOnto_bare _ no]
  | acc, .while _ _ body => visitOnto_bare (.while _ _ body :: acc) body
  | acc, .var .. | acc, .print .. | acc, .expr .. | acc, .ret .. | acc, .bad .. | acc, .hole => rfl

theorem visitAllOnto_bare : ∀ acc l : List Stmt,
    visitAllOnto (acc.map bare) (bareAll l) = (visitAllOnto acc l).map bare
  | acc, [] => rfl
  | acc, s :: rest => by rw [bareAll, visitAllOnto, visitAllOnto, visitOnto_bare, visitAllOnto_bare _ rest]

end

end Stmt

theorem Program.firstBad?_bare (p : Program) : p.bare.firstBad? = p.firstBad?.map fun q => ({}, q.2) := by
  have hbad (s : Stmt) : s.bare.bad? = s.bad?.map fun q => ({}, q.2) := by cases s <;> rfl
  have hvisited : Stmt.visited p.bare.body = (Stmt.visited p.body).map Stmt.bare := by
    unfold Stmt.visited Program.bare
    rw [List.map_reverse, ← Stmt.visitAllOnto_bare]
    rfl
  unfold firstBad?
  rw [hvisited, List.findSome?_map, List.map_findSome?]
  exact congrArg ((Stmt.visited p.body).findSome? ·) (funext hbad)

/-- What became of a compilation, lines and positions apart. -/
def Compilation.bare (c : Compilation) : Except CompileFailure Chunk :=
  match c.result with
  | .ok c => .ok c.bare
  | .error f => .error f.bare

theorem program_alike (p : Program) : Gen.Alike (Gen.program p) (Gen.program p.bare) := by
  unfold Gen.program
  rw [p.firstBad?_bare]
  cases p.firstBad? with
  | some bad => exact Gen.alike_fail _ _ _
  | none =>
    refine (Gen.stmts_alike p.body).bind fun _ => (Gen.emit_alike _).bind fun _ => ?_
    refine (Gen.alike_modify fun g g' h => ?_).bind fun _ => Gen.alike_get fun g g' h => Gen.tell_alike _ _
    exact ⟨h.code, h.consts, by simp only [h.registers], h.registers, h.env⟩

theorem compile_bare (p : Program) : (compile p).bare = (compile p.bare).bare := by
  have start : Generator.Alike {} {} := ⟨rfl, rfl, rfl, rfl, rfl⟩
  have h := program_alike p start
  unfold compile
  change Gen.Same ((Gen.program p).run {}) ((Gen.program p.bare).run {}) at h
  revert h
  generalize (Gen.program p).run {} = r
  generalize (Gen.program p.bare).run {} = r'
  rintro (hg | ⟨he, hg⟩)
  · simp [Compilation.bare, Chunk.bare, hg.code, hg.consts, hg.high]
  · simp [Compilation.bare, he]

/-- A program without gaps fails for a reason of its own or has code; both are there without its places. -/
theorem compile_cases {p : Program} (hp : p.whole = true) :
    (∃ e, (compile p).result = .error (.error e) ∧ (compile p).bare = .error (.error ⟨{}, e.fault⟩)) ∨
      ∃ c, (compile p).result = .ok c ∧ (compile p).bare = .ok c.bare := by
  unfold Compilation.bare
  cases hr : (compile p).result with
  | ok c => exact .inr ⟨c, rfl, rfl⟩
  | error f =>
    obtain ⟨e, rfl⟩ := compile_blames hp hr
    exact .inl ⟨e, rfl, rfl⟩

theorem compile_same {p q : Program} (hp : p.whole = true) (hq : q.whole = true) (h : p.bare = q.bare) :
    (∃ e e', (compile p).result = .error (.error e) ∧ (compile q).result = .error (.error e') ∧
    e.fault = e'.fault) ∨
      ∃ c c', (compile p).result = .ok c ∧ (compile q).result = .ok c' ∧ c.bare = c'.bare := by
  have hb : (compile p).bare = (compile q).bare := by rw [compile_bare p, h, ← compile_bare q]
  rcases compile_cases hp with ⟨e, he, hpe⟩ | ⟨c, hc, hpc⟩
  · rcases compile_cases hq with ⟨e', he', hqe⟩ | ⟨c', hc', hqc⟩
    · rw [hpe, hqe] at hb
      exact .inl ⟨e, e', he, he', by simpa using hb⟩
    · rw [hpe, hqc] at hb
      cases hb
  · rcases compile_cases hq with ⟨e', he', hqe⟩ | ⟨c', hc', hqc⟩
    · rw [hpc, hqe] at hb
      cases hb
    · rw [hpc, hqc] at hb
      exact .inr ⟨c, c', hc, hc', Except.ok.inj hb⟩

theorem parse_whole {tokens : List Token} (h : (parse tokens).errors = []) : (parse tokens).program.whole = true :=
  Stmt.wholeAll_of_proper _ (parse_body h).1

/-- Where the tokens of two texts are the same, wherever they stand, so are the programs and the messages of the
errors. If there are none, either both programs fail to compile for the same reason or they have the same code. -/
theorem places_immaterial (ts us : List Token)
    (h : ts.map (fun t => (t.kind, t.literal)) = us.map fun t => (t.kind, t.literal)) :
    (parse ts).program.bare = (parse us).program.bare ∧
      (parse ts).errors.map SyntaxError.message = (parse us).errors.map SyntaxError.message ∧
      ((parse ts).errors = [] →
        (∃ e e', (compile (parse ts).program).result = .error (.error e) ∧
          (compile (parse us).program).result = .error (.error e') ∧ e.fault.kind = e'.fault.kind ∧
          e.fault.name = e'.fault.name ∧ e.message = e'.message) ∨
        ∃ c c', (compile (parse ts).program).result = .ok c ∧ (compile (parse us).program).result = .ok c' ∧
          c.code = c'.code ∧ c.consts = c'.consts ∧ c.registers = c'.registers) := by
  have hbare : ts.map Token.bare = us.map Token.bare := by
    have := congrArg (List.map fun q => (⟨q.1, q.2, {}⟩ : Token)) h
    rwa [List.map_map, List.map_map] at this
  obtain ⟨hp, he⟩ := parse_alike hbare
  refine ⟨hp, ?_, fun hts => ?_⟩
  · have := congrArg (List.map SyntaxError.message) he
    rwa [List.map_map, List.map_map] at this
  · have hus : (parse us).errors = [] := by
      rw [hts, List.map_nil, eq_comm, List.map_eq_nil_iff] at he
      exact he
    rcases compile_same (parse_whole hts) (parse_whole hus) hp with ⟨e, e', hr, hr', hf⟩ | ⟨c, c', hr, hr', hc⟩
    · refine .inl ⟨e, e', hr, hr', by rw [hf], by rw [hf], ?_⟩
      rw [CompileError.message, CompileError.message, hf]
    · have hcode : c.code = c'.code ∧ c.consts = c'.consts ∧ c.registers = c'.registers := by
        simpa [Chunk.bare] using hc
      exact .inr ⟨c, c', hr, hr', hcode⟩

/-- One program on one line and on three. -/
def packed : List Token := tokenize (txt "var x=1;print x*(2+x);")

def spread : List Token := tokenize (txt "var x = 1; // one\nprint x\n  * (2 + x);")

theorem packed_same_code : packed.map (·.pos) ≠ spread.map (·.pos) ∧
    packed.map (fun t => (t.kind, t.literal)) = spread.map (fun t => (t.kind, t.literal)) ∧
    (parse packed).errors = [] ∧ (parse packed).program.bare = (parse spread).program.bare ∧
    ∃ c c', (compile (parse packed).program).result = .ok c ∧ (compile (parse spread).program).result = .ok c' ∧
      c.code = c'.code ∧ c.consts = c'.consts ∧ c.registers = c'.registers := by
  have hpos : packed.map (·.pos) ≠ spread.map (·.pos) := by decide +kernel
  have hsame : packed.map (fun t => (t.kind, t.literal)) = spread.map (fun t => (t.kind, t.literal)) := by
    decide +kernel
  have herrors : (parse packed).errors = [] := by decide +kernel
  have hok : (compile (parse packed).program).result.toBool = true := by decide +kernel
  obtain ⟨hp, -, hc⟩ := places_immaterial packed spread hsame
  refine ⟨hpos, hsame, herrors, hp, ?_⟩
  rcases hc herrors with ⟨e, e', he, -⟩ | hcode
  · rw [he] at hok
    cases hok
  · exact hcode

end RegCode
