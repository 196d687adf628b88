import RegCode.Proofs.Failure

/-!
# Registers in stack order

Registers are taken and given back in the manner of a stack. The code of an expression works in its target and above
it; of what lies below it changes the variables that the expression assigns, and nothing else. Between two
statements only the registers of variables are in use, so how many a program takes can be read off its text.
-/

namespace RegCode

/-! ## What the code of an expression writes -/

theorem Op.writes_of_combines {op : Op} (h : op.combines = true) : op.writes = true := by
  simp [writes, h]

theorem Op.computes_of_writes {op : Op} (h : op.writes = true) : op.jumps = false ∧ op ≠ .print ∧ op ≠ .halt := by
  cases op with
  | halt | jmp | jmpIf | jmpIfNot | call | ret | print => cases h
  | loadK | load | add | sub | mul | div | compare => exact ⟨rfl, by simp, by simp⟩

theorem Instruction.target?_eq_some {i : Instruction} {w : Register} (h : i.target? = some w) :
    ∃ op, i.op? = some op ∧ op.writes = true := by
  obtain ⟨op, hop, hw⟩ := Option.bind_eq_some_iff.mp h
  split at hw
  · next hwrites => exact ⟨op, hop, hwrites⟩
  · cases hw

/-- The register is the target of an expression, lies above it or belongs to a variable that the expression
assigns. -/
def Scope.Writable (S : Scope) (e : Expr) (target w : Register) : Prop :=
  w = target ∨ target < w ∨ S.assigns w e = true

def Piece.WritesIn (P : Register → Prop) (q : Piece) : Prop := ∃ w, q.instruction.target? = some w ∧ P w

namespace Piece.WritesIn

variable {P Q : Register → Prop}

theorem mono {q : Piece} (h : q.WritesIn P) (hP : ∀ w, P w → Q w) : q.WritesIn Q := by
  obtain ⟨w, hw, hp⟩ := h
  exact ⟨w, hw, hP w hp⟩

theorem load {t : Register} (ht : P t) (k : Nat) : (Piece.load t k).WritesIn P :=
  ⟨t, Instruction.target?_abx .., ht⟩

theorem copy {q : Piece} {t r : Register} (e : q.instruction = .abc Op.load.code t r 0) (ht : P t) : q.WritesIn P :=
  ⟨t, e ▸ Instruction.target?_abc .., ht⟩

theorem operate {o : Op} {t : Register} (ho : o.combines = true) (ht : P t) (x y : Register) :
    (Piece.operate o t x y).WritesIn P := by
  refine ⟨t, ?_, ht⟩
  rw [Piece.operate, Instruction.target?_abc, if_pos (Op.writes_of_combines ho)]

end Piece.WritesIn

section
variable {S : Scope} {d k : Nat} {e : Expr} {t r : Register} {F : Fragment}

theorem ExprCode.place (h : ExprCode S d k e t F r) : r = t ∨ ∃ n, S.register? n = some r := by
  induction h with
  | literal | folded | binary | negated | minus | bang => exact .inl rfl
  | name hc => exact .inr ⟨_, by rw [Scope.register?, hc, Option.map_some]⟩
  | group _ ih => exact ih
  | assign hc => exact .inr ⟨_, by rw [Scope.register?, hc, Option.map_some]⟩

theorem Scope.Writable.operand {right : Expr} {w : Register} (hd : d < maxRegisters) (ht : t.toNat < d)
    (hr : S.assigns w right = true → S.assigns w e = true) (h : S.Writable right (UInt8.ofNat d) w) :
    S.Writable e t w := by
  have hlt : t < UInt8.ofNat d := by
    rw [UInt8.lt_iff_toNat_lt, toNat_register hd]
    exact ht
  rcases h with rfl | h | h
  · exact .inr (.inl hlt)
  · exact .inr (.inl (UInt8.lt_trans hlt h))
  · exact .inr (.inr (hr h))

theorem ExprCode.writes (h : ExprCode S d k e t F r) : t.toNat < d → F.Every (Piece.WritesIn (S.Writable e t)) := by
  induction h with
  | literal | folded | negated => exact fun _ => .single rfl (.load (.inl rfl) _)
  | name => exact fun _ => .empty rfl
  | group _ ih => exact ih
  | @binary d k p op o left right t F a G b hf ho hF hd hG ihF ihG =>
    intro ht
    have hkept : (S.kept t a right).Every (Piece.WritesIn (S.Writable (.binary p op left right) t)) := by
      unfold Scope.kept
      split
      · exact .single rfl (.copy rfl (.inl rfl))
      · exact .empty rfl
    have hleft : F.Every (Piece.WritesIn (S.Writable (.binary p op left right) t)) :=
      (ihF ht).mono fun q hq => hq.mono fun w hw => hw.imp_right (Or.imp_right fun h => by simp [Scope.assigns, h])
    have hright : G.Every (Piece.WritesIn (S.Writable (.binary p op left right) t)) := by
      have hd' : (UInt8.ofNat d).toNat < d + 1 := by rw [toNat_register hd]; exact Nat.lt_succ_self d
      exact (ihG hd').mono fun q hq => hq.mono fun w hw => hw.operand hd ht fun h => by simp [Scope.assigns, h]
    have ho' := Machine.combines_operation ho
    exact (((hleft.append hkept).append (.empty rfl)).append hright).append
      (.single rfl (.operate ho' (.inl rfl) ..))
  | @minus d k p e t F a _ _ hd _ ih | @bang d k p e t F a _ hd _ ih =>
    intro ht
    have hzero : t < UInt8.ofNat d := by
      rw [UInt8.lt_iff_toNat_lt, toNat_register hd]
      exact ht
    exact (((ih ht).append (.empty rfl)).append (.single rfl (.load (.inr (.inl hzero)) _))).append
      (.single rfl (.operate rfl (.inl rfl) ..))
  | @assign d k p n c e t F a hc _ ih =>
    intro ht
    have hstored : (Fragment.stored c a).Every (Piece.WritesIn (S.Writable (.assign p n e) t)) := by
      unfold Fragment.stored
      split
      · exact .empty rfl
      · exact .single rfl (.copy rfl (.inr (.inr (by simp [Scope.assigns, Scope.register?, hc]))))
    exact ((ih ht).mono fun q hq => hq.mono fun w hw => hw.imp_right
      (Or.imp_right fun h => by simp [Scope.assigns, h])).append hstored

end

theorem Environment.toNat_lt {env : Environment} {n : Bytes} {c : Nat} (h : (env.lookup n).map (·.toNat) = some c) :
    c < maxRegisters := by
  obtain ⟨r, -, rfl⟩ := Option.map_eq_some_iff.mp h
  exact r.toNat_lt

def Scope.ofEnvironment (env : Environment) : Scope where
  cells := maxRegisters
  names n := (env.lookup n).map (·.toNat)
  bound _ _ := Environment.toNat_lt

namespace Gen

theorem tracks_ofEnvironment (g : Generator) : Tracks g (.ofEnvironment g.env) := by
  intro n
  simp only [Scope.register?, Scope.ofEnvironment, Option.map_map]
  cases g.env.lookup n with
  | none => rfl
  | some r => simp

theorem bound_of_assigns {env : Environment} {r : Register} {e : Expr} (h : assigns env r e = true) :
    ∃ n, env.lookup n = some r := by
  induction e with
  | assign p n e ih =>
    simp only [assigns, Bool.or_eq_true, beq_iff_eq] at h
    exact h.elim (fun h => ⟨n, h⟩) ih
  | binary p op left right ihl ihr =>
    simp only [assigns, Bool.or_eq_true] at h
    exact h.elim ihl ihr
  | unary p op e ih => exact ih h
  | group p e ih => exact ih h
  | literal | name | hole => cases h

end Gen

/-- Compiling an expression to the register that was taken last, in whatever state, leaves the registers in use and
the names as they were. The value is in that register or in one of a variable. The code goes straight on, and each
instruction writes the target, a register above it or a variable that the expression assigns. -/
theorem expr_footprint (e : Expr) {t r : Register} {g g' : Generator} (ht : t.toNat + 1 = g.registers.live)
    (h : Gen.expr e t g = .ok r g') :
    g'.registers.live = g.registers.live ∧ g'.env = g.env ∧ (r = t ∨ ∃ n, g.env.lookup n = some r) ∧
    ∃ code, g'.chunk.code.toList = g.chunk.code.toList ++ code ∧
      ∀ i ∈ code, ∃ op w, i.op? = some op ∧ op.jumps = false ∧ op ≠ .print ∧ op ≠ .halt ∧ i.target? = some w ∧
        (w = t ∨ t < w ∨ (∃ n, g.env.lookup n = some w) ∧ Gen.assigns g.env w e = true) := by
  have hS := Gen.tracks_ofEnvironment g
  obtain ⟨F, hF, x⟩ := Gen.expr_emits e hS h
  refine ⟨x.live, x.env, ?_, _, x.code, ?_⟩
  · exact hF.place.imp_right fun ⟨n, hn⟩ => ⟨n, (hS n).trans hn⟩
  · intro i hi
    obtain ⟨q, hq, rfl⟩ := List.mem_map.mp hi
    obtain ⟨w, hw, hfree⟩ := hF.writes (by omega) q hq
    obtain ⟨op, hop, hwrites⟩ := Instruction.target?_eq_some hw
    obtain ⟨hj, hp, hh⟩ := Op.computes_of_writes hwrites
    refine ⟨op, w, hop, hj, hp, hh, hw, hfree.imp_right (Or.imp_right fun ha => ?_)⟩
    rw [← Gen.assigns_eq hS] at ha
    exact ⟨Gen.bound_of_assigns ha, ha⟩

/-- The expression `x + (x = 5)`, behind `var x = 1;` and a register for its value. -/
def reassigning : Expr :=
  .binary {} .plus (.name {} [120]) (.group {} (.assign {} [120] (.literal {} (.int 5))))

def beforeReassigning : Gen Register := do
  Gen.stmt (.var {} [120] {} (some (.literal {} (.int 1))))
  Gen.alloc {}

def reassigningCode : List Instruction :=
  [.abc Op.load.code 1 0 0, .abx Op.loadK.code 2 1, .abc Op.load.code 0 2 0, .abc Op.add.code 1 1 0]

theorem reassigning_footprint : ∃ g g', beforeReassigning {} = .ok 1 g ∧ Gen.expr reassigning 1 g = .ok 1 g' ∧
    g'.registers.live = g.registers.live ∧ g'.chunk.code.toList = g.chunk.code.toList ++ reassigningCode ∧
    ∀ i ∈ reassigningCode, ∃ w, i.target? = some w ∧
      (w = 1 ∨ 1 < w ∨ (∃ n, g.env.lookup n = some w) ∧ Gen.assigns g.env w reassigning = true) := by
  obtain ⟨g, g', h₁, h₂, hlive, hcode⟩ : ∃ g g', beforeReassigning {} = .ok 1 g ∧
      Gen.expr reassigning 1 g = .ok 1 g' ∧ g.registers.live = 2 ∧
      g'.chunk.code.toList = g.chunk.code.toList ++ reassigningCode := ⟨_, _, rfl, rfl, rfl, rfl⟩
  obtain ⟨hsame, -, -, code, hsplit, hall⟩ := expr_footprint reassigning (t := 1) hlive.symm h₂
  have hc : reassigningCode = code := List.append_cancel_left (hcode.symm.trans hsplit)
  refine ⟨g, g', h₁, h₂, hsame, hcode, fun i hi => ?_⟩
  obtain ⟨op, w, -, -, -, -, hw, hfree⟩ := hall i (hc ▸ hi)
  exact ⟨w, hw, hfree⟩

/-! ## How many registers a program takes -/

namespace Task

def declared (ts : List Task) : Nat := (ts.filterMap name?).length

theorem declared_cons (t : Task) (ts : List Task) : declared (t :: ts) = t.name?.toList.length + declared ts := by
  cases h : t.name? with
  | none => simp [declared, h]
  | some n => simp [declared, h, Nat.add_comm]

theorem declared_behind (S : Scope) (ts : List Task) : (S.behind ts).cells = S.cells + declared ts := by
  induction ts generalizing S with
  | nil => rfl
  | cons t ts ih => rw [Scope.behind_cons, ih, Scope.cells_scope, declared_cons, Nat.add_assoc]

theorem le_demand (k : Nat) (before : List Task) (t : Task) (after : List Task) :
    k + declared before + 1 + t.need ≤ demand k (before ++ t :: after) := by
  induction before generalizing k with
  | nil => exact Nat.le_max_left ..
  | cons u before ih =>
    have h := ih (k + u.name?.toList.length)
    rw [declared_cons, List.cons_append, demand]
    omega

theorem demand_attained (k : Nat) {ts : List Task} (h : ts ≠ []) :
    ∃ before t after, ts = before ++ t :: after ∧ demand k ts = k + declared before + 1 + t.need := by
  induction ts generalizing k with
  | nil => exact absurd rfl h
  | cons u ts ih =>
    by_cases hu : demand (k + u.name?.toList.length) ts ≤ k + 1 + u.need
    · exact ⟨[], u, ts, rfl, Nat.max_eq_left hu⟩
    · have hts : ts ≠ [] := by
        rintro rfl
        exact hu (Nat.zero_le _)
      obtain ⟨before, t, after, rfl, hd⟩ := ih (k + u.name?.toList.length) hts
      refine ⟨u :: before, t, after, rfl, ?_⟩
      rw [declared_cons, demand, Nat.max_eq_right (by omega), hd]
      omega

end Task

theorem program_live {p : Program} {g : Generator} (h : (Gen.program p).run {} = .ok () g) :
    g.registers.live = Task.declared p.tasks := by
  change Gen.program p {} = .ok () g at h
  unfold Gen.program at h
  cases hb : p.firstBad? with
  | some b =>
    rw [hb] at h
    cases h
  | none =>
    rw [hb] at h
    obtain ⟨_, g₁, h₁, h⟩ := Gen.bind_ok h
    cases h
    obtain ⟨-, -, -, hS⟩ := Gen.stmts_emits p.body stands_empty h₁
    change g₁.registers.live = _
    rw [hS.live, Scope.afterAll_eq, Task.declared_behind]
    exact Nat.zero_add _

theorem compile_ok_run {p : Program} {c : Chunk} (h : (compile p).result = .ok c) :
    ∃ g, (Gen.program p).run {} = .ok () g ∧ g.chunk = c := by
  unfold compile at h
  split at h
  · next g hg =>
    cases h
    exact ⟨g, hg, rfl⟩
  · cases h

/-- No register of a program without gaps is ever given back out of turn. If the program compiles, the registers in
use at the end are those of its variables, and the number of registers is the largest that a step takes: those of
the variables declared before, one for its value, and what its expression needs besides. -/
theorem registers_in_stack_order (p : Program) (hp : p.whole = true) :
    (∀ f, (compile p).result ≠ .error (.register f)) ∧
    ∀ c, (compile p).result = .ok c →
      (∃ g, (Gen.program p).run {} = .ok () g ∧ g.chunk = c ∧ g.registers.live = Task.declared p.tasks) ∧
      (p.tasks = [] → c.registers = 0) ∧
      (p.tasks ≠ [] → ∃ before t after, p.tasks = before ++ t :: after ∧
        c.registers = (Task.declared before + 1 + t.need : Nat)) ∧
      ∀ before t after, p.tasks = before ++ t :: after →
      (Task.declared before + 1 + t.need : Nat) ≤ c.registers := by
  constructor
  · intro f hf
    obtain ⟨e, he⟩ := compile_blames hp hf
    cases he
  · intro c hc
    obtain ⟨g, hg, hgc⟩ := compile_ok_run hc
    obtain ⟨F, hF⟩ := compile_compiled hc
    have hr : c.registers = Task.demand 0 p.tasks := by
      rw [hF.registers, hF.body.peak_eq]
      rfl
    refine ⟨⟨g, hg, hgc, program_live hg⟩, fun h => ?_, fun h => ?_, fun before t after h => ?_⟩
    · rw [hr, h]
      rfl
    · obtain ⟨before, t, after, hs, hd⟩ := Task.demand_attained 0 h
      exact ⟨before, t, after, hs, by rw [hr, hd, Nat.zero_add]⟩
    · have hle := Task.le_demand 0 before t after
      rw [Nat.zero_add] at hle
      rw [hr, h]
      exact Int.ofNat_le.mpr hle

/-- The program `var a = 1; { var a = a * (2 - a); } fn f() { var b; } print !a;`. -/
def stacked : Program where
  body := [.var {} [97] {} (some (.literal {} (.int 1))),
    .block {} [.var {} [97] {} (some (.binary {} .star (.name {} [97])
      (.group {} (.binary {} .minus (.literal {} (.int 2)) (.name {} [97])))))],
    .func {} [102] {} [] [.var {} [98] {} none],
    .print {} (.unary {} .bang (.name {} [97]))]

/-- Two variables, and four registers: the second initializer takes as many, and so does the last statement. -/
theorem stacked_in_order : stacked.whole = true ∧ (∀ f, (compile stacked).result ≠ .error (.register f)) ∧
    ∃ c g, (compile stacked).result = .ok c ∧ (Gen.program stacked).run {} = .ok () g ∧ g.registers.live = 2 ∧
      c.registers = 4 ∧ ∀ before t after, stacked.tasks = before ++ t :: after →
        (Task.declared before + 1 + t.need : Nat) ≤ (4 : Int) := by
  have hw : stacked.whole = true := by decide
  have h : (compile stacked).result.toOption.map (·.registers) = some 4 := by decide +kernel
  obtain ⟨hfree, hall⟩ := registers_in_stack_order stacked hw
  cases hr : (compile stacked).result with
  | error f =>
    rw [hr] at h
    cases h
  | ok c =>
    rw [hr] at h
    have h4 : c.registers = 4 := Option.some.inj h
    obtain ⟨⟨g, hg, -, hlive⟩, -, -, hle⟩ := hall c hr
    rw [hr] at hfree
    exact ⟨hw, hfree, c, g, rfl, hg, hlive, h4, h4 ▸ hle⟩

end RegCode
