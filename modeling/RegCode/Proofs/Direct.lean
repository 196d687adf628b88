import RegCode.Proofs.Retention

/-!
# Generating code without completing jumps

A generator that has the code a jump goes over at hand before it writes the jump, so that nothing written is
ever changed. The compiler, which writes jumps first and completes them afterwards, comes to the same code. It
follows where every jump leads, and that code does not depend on what is compiled after it.
-/

namespace RegCode

/-- The code of an expression while `depth` registers and `base` constants are in use, and the register its
value is in at the end. There is none where a name is not declared or an operator has no operation. -/
def Expr.code? (S : Scope) : Expr → (depth base : Nat) → Register → Option (Fragment × Register)
  | .literal _ v, _, k, t => some (.constant t k v.const, t)
  | .name _ n, _, _, _ => (S.names n).map fun c => ({}, UInt8.ofNat c)
  | .group _ e, d, k, t => e.code? S d k t
  | .binary _ op left right, d, k, t =>
    match Expr.fold? op left right with
    | some x => some (.constant t k (.float x), t)
    | none => do
      let o ← op.operation?
      let (F, a) ← left.code? S d k t
      let (G, b) ← right.code? S (d + 1) (k + F.consts.length) (UInt8.ofNat d)
      return (F ++ S.kept t a right ++ .take d ++ G ++ .one (.operate o t (S.keptIn t a right) b), t)
  | .unary _ .minus e, d, k, t =>
    match e.negate? with
    | some c => some (.constant t k c, t)
    | none => do
      let (F, a) ← e.code? S d k t
      return (F ++ .take d ++ .constant (UInt8.ofNat d) (k + F.consts.length) (.int 0) ++
        .one (.operate .sub t (UInt8.ofNat d) a), t)
  | .unary _ .bang e, d, k, t => do
    let (F, a) ← e.code? S d k t
    return (F ++ .take d ++ .constant (UInt8.ofNat d) (k + F.consts.length) (.int 0) ++
      .one (.operate (.compare .eq) t a (UInt8.ofNat d)), t)
  | .unary .., _, _, _ => none
  | .assign _ n e, d, k, t => do
    let c ← S.names n
    let (F, a) ← e.code? S d k t
    return (F ++ .stored c a, UInt8.ofNat c)
  | .hole, _, _, _ => none

/-- The code of an expression whose value goes to the next register, behind the variables. -/
def Expr.nextCode? (S : Scope) (cells base : Nat) (e : Expr) : Option (Fragment × Register) := do
  let (F, r) ← e.code? S (cells + 1) base (UInt8.ofNat cells)
  return (.take cells ++ F, r)

namespace Stmt

mutual

/-- The code of a statement while `base` constants are in use. -/
def code? (S : Scope) (base : Nat) : Stmt → Option Fragment
  | .print _ e => do
    let (F, r) ← e.nextCode? S S.cells base
    return F ++ .one (.print r)
  | .var _ _ _ none => some (Fragment.take S.cells).declared
  | .var _ n _ (some e) => do
    let (F, r) ← e.nextCode? (S.declare n) S.cells base
    return (F ++ .moved (UInt8.ofNat S.cells) r).declared
  | .expr _ e => do
    let (F, _) ← e.nextCode? S S.cells base
    return F
  | .block _ body => codeAll? S base body
  | .ifThen _ cond yes => do
    let (F, r) ← cond.nextCode? S S.cells base
    let Y ← yes.code? S (base + F.consts.length)
    return F ++ .one (.jumpUnless r (Y.code.length + 1)) ++ Y
  | .ifElse _ cond yes no => do
    let (F, r) ← cond.nextCode? S S.cells base
    let Y ← yes.code? S (base + F.consts.length)
    let N ← no.code? (S.after yes) (base + F.consts.length + Y.consts.length)
    return F ++ .one (.jumpUnless r (Y.code.length + 2)) ++ Y ++ .one (.jump (N.code.length + 1)) ++ N
  | .while _ cond body => do
    let (F, r) ← cond.nextCode? S S.cells base
    let B ← body.code? S (base + F.consts.length)
    return (F ++ .one (.jumpUnless r (B.code.length + 2)) ++ B ++
      .one (.jump (-(F.code.length + 1 + B.code.length)))).looped
  | .ret .. | .func .. => some {}
  | .bad .. | .hole => none

def codeAll? (S : Scope) (base : Nat) : List Stmt → Option Fragment
  | [] => some {}
  | s :: rest => do
    let F ← s.code? S base
    let G ← codeAll? (S.after s) (base + F.consts.length) rest
    return F ++ G

end

end Stmt

/-! ## The rules give the same code -/

theorem ExprCode.code?_eq {S : Scope} {d k : Nat} {e : Expr} {t r : Register} {F : Fragment}
    (h : ExprCode S d k e t F r) : e.code? S d k t = some (F, r) := by
  induction h with
  | literal => rfl
  | name hc => simp [Expr.code?, hc]
  | group _ ih => exact ih
  | folded hf => simp [Expr.code?, hf]
  | binary hf ho _ _ _ ihF ihG => simp [Expr.code?, hf, ho, ihF, ihG]
  | negated hn => simp [Expr.code?, hn]
  | minus hn _ _ _ ih => simp [Expr.code?, hn, ih]
  | bang _ _ _ ih => simp [Expr.code?, ih]
  | assign hc _ ih => simp [Expr.code?, hc, ih]

theorem NextCode.code?_eq {S : Scope} {cells k : Nat} {e : Expr} {F : Fragment} {r : Register}
    (h : NextCode S cells k e F r) : e.nextCode? S cells k = some (F, r) := by
  obtain ⟨-, G, hG, rfl⟩ := h
  simp [Expr.nextCode?, hG.code?_eq]

mutual

theorem StmtCode.code?_eq : ∀ {S : Scope} {k : Nat} {s : Stmt} {F : Fragment}, StmtCode S k s F →
    s.code? S k = some F
  | _, _, _, _, .print hF => by simp [Stmt.code?, hF.code?_eq]
  | _, _, _, _, .declare _ => by simp [Stmt.code?]
  | _, _, _, _, .init hF => by simp [Stmt.code?, hF.code?_eq]
  | _, _, _, _, .expr hF => by simp [Stmt.code?, hF.code?_eq]
  | _, _, _, _, .block hB => by simp [Stmt.code?, hB.codeAll?_eq]
  | _, _, _, _, .ifThen hF hY _ => by simp [Stmt.code?, hF.code?_eq, hY.code?_eq]
  | _, _, _, _, .ifElse hF hY _ hN _ => by simp [Stmt.code?, hF.code?_eq, hY.code?_eq, hN.code?_eq]
  | _, _, _, _, .while hF hB _ _ => by simp [Stmt.code?, hF.code?_eq, hB.code?_eq]
  | _, _, _, _, .ret => by simp [Stmt.code?]
  | _, _, _, _, .func => by simp [Stmt.code?]

theorem StmtsCode.codeAll?_eq : ∀ {S : Scope} {k : Nat} {l : List Stmt} {F : Fragment}, StmtsCode S k l F →
    Stmt.codeAll? S k l = some F
  | _, _, _, _, .nil => by simp [Stmt.codeAll?]
  | _, _, _, _, .cons hF hG => by simp [Stmt.codeAll?, hF.code?_eq, hG.codeAll?_eq]

end

/-! ## Straight code -/

/-- An instruction on registers below `n` that neither jumps nor prints nor halts. -/
inductive Piece.Straight (n : Nat) : Piece → Prop
  | load {t k} : t.toNat < n → Straight n (.load t k)
  | copy {t r} : t.toNat < n → r.toNat < n → Straight n (.copy t r)
  | assign {c r} : c < n → r.toNat < n → Straight n (.assign c r)
  | operate {o t x y} : o.combines = true → t.toNat < n → x.toNat < n → y.toNat < n →
      Straight n (.operate o t x y)

theorem Piece.Straight.displacement? {n : Nat} {q : Piece} (h : q.Straight n) :
    q.instruction.displacement? = none := by
  cases h with
  | load => exact Instruction.displacement?_abx rfl ..
  | copy | assign => exact Instruction.displacement?_abc rfl ..
  | @operate o t x y ho =>
    have hj : o.jumps = false := by cases o <;> first | rfl | cases ho
    exact Instruction.displacement?_abc hj ..

theorem toNat_register_le (c : Nat) : (UInt8.ofNat c).toNat ≤ c := by
  rw [UInt8.toNat_ofNat']
  exact Nat.mod_le ..

def Fragment.Every (P : Piece → Prop) (F : Fragment) : Prop := ∀ q ∈ F.code, P q

namespace Fragment.Every

variable {P Q : Piece → Prop} {F G : Fragment} {n : Nat}

theorem mono (h : F.Every P) (hP : ∀ q, P q → Q q) : F.Every Q := fun q hq => hP q (h q hq)

theorem append (hF : F.Every P) (hG : G.Every P) : (F ++ G).Every P := by
  intro q hq
  rw [code_append, List.mem_append] at hq
  exact hq.elim (hF q) (hG q)

theorem empty (h : F.code = []) : F.Every P := by
  intro q hq
  rw [h] at hq
  cases hq

theorem single {q : Piece} (h : F.code = [q]) (hq : P q) : F.Every P := by
  intro q' hq'
  rw [h, List.mem_singleton] at hq'
  exact hq' ▸ hq

theorem moved {t r : Register} (ht : t.toNat < n) (hr : r.toNat < n) :
    (Fragment.moved t r).Every (Piece.Straight n) := by
  unfold Fragment.moved
  split
  · exact empty rfl
  · exact single rfl (.copy ht hr)

theorem stored {c : Nat} {r : Register} (hc : c < n) (hr : r.toNat < n) :
    (Fragment.stored c r).Every (Piece.Straight n) := by
  unfold Fragment.stored
  split
  · exact empty rfl
  · exact single rfl (.assign hc hr)

theorem kept {S : Scope} {t r : Register} {e : Expr} (ht : t.toNat < n) (hr : r.toNat < n) :
    (S.kept t r e).Every (Piece.Straight n) ∧ (S.keptIn t r e).toNat < n := by
  unfold Scope.kept Scope.keptIn
  split
  · exact ⟨single rfl (.copy ht hr), ht⟩
  · exact ⟨empty rfl, hr⟩

end Fragment.Every

theorem expr_straight {S : Scope} {d k n : Nat} {e : Expr} {t r : Register} {F : Fragment}
    (h : ExprCode S d k e t F r) (hS : S.cells ≤ n) (ht : t.toNat < n) (hn : F.peak ≤ n) :
    F.Every (Piece.Straight n) ∧ r.toNat < n := by
  have hcell : ∀ {m c}, S.names m = some c → c < n := fun hc => Nat.lt_of_lt_of_le (S.bound _ _ hc) hS
  induction h with
  | literal | folded | negated => exact ⟨.single rfl (.load ht), ht⟩
  | name hc => exact ⟨.empty rfl, Nat.lt_of_le_of_lt (toNat_register_le _) (hcell hc)⟩
  | group _ ih => exact ih ht hn
  | @binary d _ _ _ _ _ _ t F a G b _ ho _ _ _ ihF ihG =>
    simp only [Fragment.peak_append, Fragment.take, Nat.max_le] at hn
    obtain ⟨⟨⟨⟨hF, -⟩, hd⟩, hG⟩, -⟩ := hn
    have hd' : (UInt8.ofNat d).toNat < n := Nat.lt_of_le_of_lt (toNat_register_le d) hd
    obtain ⟨sF, ha⟩ := ihF ht hF
    obtain ⟨sG, hb⟩ := ihG hd' hG
    obtain ⟨sK, hk⟩ := Fragment.Every.kept ht ha
    have ho' := Machine.combines_operation ho
    exact ⟨(((sF.append sK).append (.empty rfl)).append sG).append (.single rfl (.operate ho' ht hk hb)), ht⟩
  | @minus d _ _ _ t F a _ _ _ _ ih | @bang d _ _ _ t F a _ _ _ ih =>
    simp only [Fragment.peak_append, Fragment.take, Nat.max_le] at hn
    obtain ⟨⟨⟨hF, hd⟩, -⟩, -⟩ := hn
    have hd' : (UInt8.ofNat d).toNat < n := Nat.lt_of_le_of_lt (toNat_register_le d) hd
    obtain ⟨sF, ha⟩ := ih ht hF
    refine ⟨((sF.append (.empty rfl)).append (.single rfl (.load hd'))).append
      (.single rfl (.operate rfl ht ?_ ?_)), ht⟩ <;> assumption
  | assign hc _ ih =>
    simp only [Fragment.peak_append, Nat.max_le] at hn
    obtain ⟨sF, ha⟩ := ih ht hn.1
    exact ⟨sF.append (.stored (hcell hc) ha), Nat.lt_of_le_of_lt (toNat_register_le _) (hcell hc)⟩

theorem next_straight {S : Scope} {cells k n : Nat} {e : Expr} {F : Fragment} {r : Register}
    (h : NextCode S cells k e F r) (hS : S.cells ≤ n) (hn : F.peak ≤ n) :
    F.Every (Piece.Straight n) ∧ r.toNat < n := by
  obtain ⟨-, G, hG, rfl⟩ := h
  simp only [Fragment.peak_append, Fragment.take, Nat.max_le] at hn
  have ht : (UInt8.ofNat cells).toNat < n := Nat.lt_of_le_of_lt (toNat_register_le cells) hn.1
  obtain ⟨sG, hr⟩ := expr_straight hG hS ht hn.2
  exact ⟨Fragment.Every.append (.empty rfl) sG, hr⟩

theorem init_straight {S : Scope} {m : Bytes} {k n : Nat} {e : Expr} {F : Fragment} {r : Register}
    (h : NextCode (S.declare m) S.cells k e F r) (hS : S.cells < n) (hn : F.peak ≤ n) :
    (F ++ .moved (UInt8.ofNat S.cells) r).Every (Piece.Straight n) := by
  obtain ⟨sF, hr⟩ := next_straight h hS hn
  exact sF.append (.moved (Nat.lt_of_le_of_lt (toNat_register_le _) hS) hr)

/-! ## Where jumps lead -/

namespace Fragment

def Leaps (F : Fragment) (i : Nat) (d : Int) : Prop :=
  ∃ q, F.code[i]? = some q ∧ q.instruction.displacement? = some d

theorem leaps_append {F G : Fragment} {i : Nat} {d : Int} (h : (F ++ G).Leaps i d) :
    F.Leaps i d ∨ ∃ j, i = F.code.length + j ∧ G.Leaps j d := by
  obtain ⟨q, hq, hd⟩ := h
  rcases code_append_cases hq with ⟨-, hF⟩ | ⟨j, rfl, hG⟩
  · exact .inl ⟨q, hF, hd⟩
  · exact .inr ⟨j, rfl, q, hG, hd⟩

theorem leaps_one {q : Piece} {op a : UInt8} {i : Nat} {d n : Int} (hn : Reachable n)
    (hq : q.instruction = .asbx op a (Int16.ofInt n)) (h : (Fragment.one q).Leaps i d) : i = 0 ∧ d = n := by
  obtain ⟨q', hq', hd⟩ := h
  cases i with
  | succ i => cases hq'
  | zero =>
    cases hq'
    refine ⟨rfl, ?_⟩
    rw [Instruction.displacement?, hq, Instruction.sbx_asbx, Machine.toInt_ofInt hn] at hd
    obtain ⟨op, -, hd⟩ := Option.bind_eq_some_iff.mp hd
    split at hd
    · exact (Option.some.inj hd).symm
    · cases hd

end Fragment

mutual

/-- The code of a statement that begins in place `pos` has a jump from `origin` to `target`: to what comes after
the statement, to the start of the other branch, or back to the start of the loop. -/
inductive Jumps : Scope → (base pos : Nat) → Stmt → (origin target : Nat) → Prop
  | skip {S k pos p e yes F r X} : e.nextCode? S S.cells k = some (F, r) →
      (Stmt.ifThen p e yes).code? S k = some X →
      Jumps S k pos (.ifThen p e yes) (pos + F.code.length) (pos + X.code.length)
  | other {S k pos p e yes no F r Y} : e.nextCode? S S.cells k = some (F, r) →
      yes.code? S (k + F.consts.length) = some Y →
      Jumps S k pos (.ifElse p e yes no) (pos + F.code.length) (pos + F.code.length + 1 + Y.code.length + 1)
  | done {S k pos p e yes no F r Y X} : e.nextCode? S S.cells k = some (F, r) →
      yes.code? S (k + F.consts.length) = some Y → (Stmt.ifElse p e yes no).code? S k = some X →
      Jumps S k pos (.ifElse p e yes no) (pos + F.code.length + 1 + Y.code.length) (pos + X.code.length)
  | exit {S k pos p e body F r X} : e.nextCode? S S.cells k = some (F, r) →
      (Stmt.while p e body).code? S k = some X →
      Jumps S k pos (.while p e body) (pos + F.code.length) (pos + X.code.length)
  | back {S k pos p e body F r B} : e.nextCode? S S.cells k = some (F, r) →
      body.code? S (k + F.consts.length) = some B →
      Jumps S k pos (.while p e body) (pos + F.code.length + 1 + B.code.length) pos
  | block {S k pos p body i j} : JumpsAll S k pos body i j → Jumps S k pos (.block p body) i j
  | ifThen {S k pos p e yes F r i j} : e.nextCode? S S.cells k = some (F, r) →
      Jumps S (k + F.consts.length) (pos + F.code.length + 1) yes i j → Jumps S k pos (.ifThen p e yes) i j
  | yes {S k pos p e yes no F r i j} : e.nextCode? S S.cells k = some (F, r) →
      Jumps S (k + F.consts.length) (pos + F.code.length + 1) yes i j → Jumps S k pos (.ifElse p e yes no) i j
  | no {S k pos p e yes no F r Y i j} : e.nextCode? S S.cells k = some (F, r) →
      yes.code? S (k + F.consts.length) = some Y →
      Jumps (S.after yes) (k + F.consts.length + Y.consts.length)
      (pos + F.code.length + 1 + Y.code.length + 1) no i j →
      Jumps S k pos (.ifElse p e yes no) i j
  | while {S k pos p e body F r i j} : e.nextCode? S S.cells k = some (F, r) →
      Jumps S (k + F.consts.length) (pos + F.code.length + 1) body i j → Jumps S k pos (.while p e body) i j

inductive JumpsAll : Scope → (base pos : Nat) → List Stmt → (origin target : Nat) → Prop
  | head {S k pos s rest i j} : Jumps S k pos s i j → JumpsAll S k pos (s :: rest) i j
  | tail {S k pos s rest F i j} : s.code? S k = some F →
      JumpsAll (S.after s) (k + F.consts.length) (pos + F.code.length) rest i j → JumpsAll S k pos (s :: rest) i j

end

/-- Every jump of the fragment leads where `P` says, if the fragment begins in place `pos`. -/
def Fragment.Leads (F : Fragment) (pos : Nat) (P : Nat → Nat → Prop) : Prop :=
  ∀ i d, F.Leaps i d → ∃ target : Nat, (target : Int) = pos + i + d ∧ P (pos + i) target

namespace Fragment.Leads

variable {F G : Fragment} {pos : Nat} {P Q : Nat → Nat → Prop}

theorem mono (h : F.Leads pos P) (hP : ∀ i j, P i j → Q i j) : F.Leads pos Q := by
  intro i d hl
  obtain ⟨target, ht, hp⟩ := h i d hl
  exact ⟨target, ht, hP _ _ hp⟩

theorem append (hF : F.Leads pos P) (hG : G.Leads (pos + F.code.length) P) : (F ++ G).Leads pos P := by
  intro i d hl
  rcases leaps_append hl with hl' | ⟨j, rfl, hl'⟩
  · exact hF i d hl'
  · obtain ⟨target, ht, hp⟩ := hG j d hl'
    refine ⟨target, ?_, ?_⟩
    · push_cast at ht ⊢
      omega
    · rwa [← Nat.add_assoc]

theorem moved {pos' : Nat} (h : F.Leads pos P) (e : pos = pos') : F.Leads pos' P := e ▸ h

theorem looped (h : F.Leads pos P) : F.looped.Leads pos P := h

theorem declared (h : F.Leads pos P) : F.declared.Leads pos P := h

theorem still (h : F.Every (·.instruction.displacement? = none)) : F.Leads pos P := by
  intro i d hl
  obtain ⟨q, hq, hd⟩ := hl
  rw [h q (List.mem_of_getElem? hq)] at hd
  cases hd

theorem empty (h : F.code = []) : F.Leads pos P := still (.empty h)

theorem straight {n : Nat} (h : F.Every (Piece.Straight n)) : F.Leads pos P :=
  still (h.mono fun _ hq => hq.displacement?)

theorem next {S : Scope} {cells k : Nat} {e : Expr} {r : Register} (h : NextCode S cells k e F r) : F.Leads pos P :=
  straight (next_straight h (Nat.le_max_left ..) (Nat.le_max_right ..)).1

theorem jump {q : Piece} {op a : UInt8} {n : Int} {target : Nat} (hn : Reachable n)
    (hq : q.instruction = .asbx op a (Int16.ofInt n)) (ht : (target : Int) = pos + n) (hP : P pos target) :
    (Fragment.one q).Leads pos P := by
  intro i d hl
  obtain ⟨rfl, rfl⟩ := leaps_one hn hq hl
  exact ⟨target, by omega, hP⟩

end Fragment.Leads

/-- A jump inside the code of a fragment, or to what comes behind it, that does not lead to itself. -/
def Fragment.Spans (F : Fragment) (pos origin target : Nat) : Prop :=
  pos ≤ target ∧ target ≤ pos + F.code.length ∧ target ≠ origin

theorem Fragment.Spans.within {F X : Fragment} {pos pos' i j : Nat} (h : F.Spans pos i j) (hlo : pos' ≤ pos)
    (hhi : pos + F.code.length ≤ pos' + X.code.length) : X.Spans pos' i j :=
  ⟨Nat.le_trans hlo h.1, Nat.le_trans h.2.1 hhi, h.2.2⟩

mutual

theorem stmt_leads : ∀ {S : Scope} {k pos : Nat} {s : Stmt} {X : Fragment}, StmtCode S k s X →
    X.Leads pos fun i j => Jumps S k pos s i j ∧ X.Spans pos i j
  | _, _, _, _, _, .print hF => .append (.next hF) (.still (.single rfl (Instruction.displacement?_abc rfl ..)))
  | _, _, _, _, _, .declare _ => .empty rfl
  | _, _, _, _, _, .init hF => .declared (.straight (init_straight hF (Nat.le_max_left _ _) (Nat.le_max_right _ _)))
  | _, _, _, _, _, .expr hF => .next hF
  | _, _, _, _, _, .block hB => (stmts_leads hB).mono fun _ _ h => ⟨.block h.1, h.2⟩
  | _, _, _, _, _, .ifThen hF hY hd => by
    have eF := hF.code?_eq
    refine .append (.append (.next hF) (.jump hd rfl ?_ ⟨.skip eF (StmtCode.ifThen hF hY hd).code?_eq, ?_, ?_, ?_⟩))
      (((stmt_leads hY).mono fun _ _ h => ⟨.ifThen eF h.1, h.2.within ?_ ?_⟩).moved ?_)
    all_goals grind
  | _, _, _, _, _, .ifElse hF hY hd hN hd' => by
    have eF := hF.code?_eq
    have eY := hY.code?_eq
    refine .append (.append (.append (.append (.next hF) (.jump hd rfl ?_ ⟨.other eF eY, ?_, ?_, ?_⟩))
      (((stmt_leads hY).mono fun _ _ h => ⟨.yes eF h.1, h.2.within ?_ ?_⟩).moved ?_))
      ((Fragment.Leads.jump hd' rfl ?_
        ⟨.done eF eY (StmtCode.ifElse hF hY hd hN hd').code?_eq, ?_, ?_, ?_⟩).moved ?_))
      (((stmt_leads hN).mono fun _ _ h => ⟨.no eF eY h.1, h.2.within ?_ ?_⟩).moved ?_)
    all_goals grind
  | _, _, _, _, _, .while hF hB hd hd' => by
    have eF := hF.code?_eq
    refine .looped (.append (.append (.append (.next hF)
      (.jump hd rfl ?_ ⟨.exit eF (StmtCode.while hF hB hd hd').code?_eq, ?_, ?_, ?_⟩))
      (((stmt_leads hB).mono fun _ _ h => ⟨.while eF h.1, h.2.within ?_ ?_⟩).moved ?_))
      ((Fragment.Leads.jump hd' rfl ?_ ⟨.back eF hB.code?_eq, ?_, ?_, ?_⟩).moved ?_))
    all_goals grind
  | _, _, _, _, _, .ret => .empty rfl
  | _, _, _, _, _, .func => .empty rfl

theorem stmts_leads : ∀ {S : Scope} {k pos : Nat} {l : List Stmt} {X : Fragment}, StmtsCode S k l X →
    X.Leads pos fun i j => JumpsAll S k pos l i j ∧ X.Spans pos i j
  | _, _, _, _, _, .nil => .empty rfl
  | _, _, _, _, _, .cons hF hG => by
    refine .append ((stmt_leads hF).mono fun _ _ h => ⟨.head h.1, h.2.within ?_ ?_⟩)
      ((stmts_leads hG).mono fun _ _ h => ⟨.tail hF.code?_eq h.1, h.2.within ?_ ?_⟩)
    all_goals grind

end

/-! ## Completing a jump -/

theorem Chunk.patchFault?_eq_none {c : Chunk} {index : Nat} (h : c.patchFault? index = none) :
    ∃ i, c.code[index]? = some i ∧ i.isJump = true := by
  unfold Chunk.patchFault? at h
  cases hi : c.code[index]? with
  | none =>
    rw [hi] at h
    cases h
  | some i =>
    rw [hi] at h
    by_cases hj : i.isJump = true
    · exact ⟨i, rfl, hj⟩
    · simp [hj] at h

namespace Gen

variable {g g' : Generator}

/-- A jump that lands gets its displacement, and nothing else changes. -/
theorem land_patches {index target : Nat} {pos : Position} (h : land index target pos g = .ok () g') :
    (∃ i, g.chunk.code[index]? = some i ∧ i.isJump = true ∧
      g'.chunk.code[index]? = some (.asbx i.opcode i.a (Int16.ofInt (target - index)))) ∧
    ∀ j, j ≠ index → g'.chunk.code[j]? = g.chunk.code[j]? := by
  obtain ⟨-, hp, rfl⟩ := land_ok h
  constructor
  · obtain ⟨i, hi, hj⟩ := Chunk.patchFault?_eq_none hp
    refine ⟨i, hi, hj, ?_⟩
    simp [Chunk.setSbx, Array.getElem?_modify, hi, Instruction.withSbx_eq]
  · intro j hj
    simp [Chunk.setSbx, Array.getElem?_modify, Ne.symm hj]

/-! ## One program in front of another -/

theorem stmts_append {l₁ l₂ : List Stmt} (h : stmts (l₁ ++ l₂) g = .ok () g') :
    ∃ g₁, stmts l₁ g = .ok () g₁ ∧ stmts l₂ g₁ = .ok () g' := by
  induction l₁ generalizing g with
  | nil => exact ⟨g, rfl, h⟩
  | cons s l ih =>
    obtain ⟨_, g₀, h₀, h⟩ := bind_ok h
    obtain ⟨g₁, h₁, h₂⟩ := ih h
    exact ⟨g₁, bind_eq_ok h₀ h₁, h₂⟩

end Gen

namespace Stmt

theorem visitAllOnto_append (acc l₁ l₂ : List Stmt) :
    visitAllOnto acc (l₁ ++ l₂) = visitAllOnto (visitAllOnto acc l₁) l₂ := by
  induction l₁ generalizing acc with
  | nil => rfl
  | cons s l ih => exact ih _

mutual

theorem mem_visitOnto {x : Stmt} : ∀ {acc : List Stmt} (s : Stmt), x ∈ acc → x ∈ visitOnto acc s
  | _, .hole, h => h
  | _, .block _ body, h => mem_visitAllOnto body (.tail _ h)
  | _, .ifThen _ _ yes, h => mem_visitOnto yes (.tail _ h)
  | _, .ifElse _ _ yes no, h => mem_visitOnto no (mem_visitOnto yes (.tail _ h))
  | _, .while _ _ body, h => mem_visitOnto body (.tail _ h)
  | _, .func _ _ _ _ body, h => mem_visitAllOnto body (.tail _ h)
  | _, .var .., h | _, .print .., h | _, .expr .., h | _, .ret .., h | _, .bad .., h => .tail _ h

theorem mem_visitAllOnto {x : Stmt} : ∀ {acc : List Stmt} (l : List Stmt), x ∈ acc → x ∈ visitAllOnto acc l
  | _, [], h => h
  | _, s :: rest, h => mem_visitAllOnto rest (mem_visitOnto s h)

end

end Stmt

theorem Program.firstBad?_of_append {p p₁ p₂ : Program} (hp : p.body = p₁.body ++ p₂.body)
    (h : p.firstBad? = none) :
    p₁.firstBad? = none := by
  unfold firstBad? Stmt.visited at h ⊢
  rw [List.findSome?_eq_none_iff] at h ⊢
  intro s hs
  apply h
  rw [hp, Stmt.visitAllOnto_append]
  simp only [List.mem_reverse] at hs ⊢
  exact Stmt.mem_visitAllOnto p₂.body hs

theorem compile_append {p p₁ p₂ : Program} {c : Chunk} (hp : p.body = p₁.body ++ p₂.body)
    (h : (compile p).result = .ok c) : ∃ c₁ X, (compile p₁).result = .ok c₁ ∧
      c₁.code.toList = X ++ [.abc Op.halt.code 0 0 0] ∧ X <+: c.code.toList ∧
      c₁.consts.toList <+: c.consts.toList := by
  obtain ⟨hb, g, hg, rfl⟩ := compile_ok_iff.mp h
  rw [hp] at hg
  obtain ⟨g₁, h₁, h₂⟩ := Gen.stmts_append hg
  obtain ⟨-, -, -, hS₁⟩ := Gen.stmts_emits _ stands_empty h₁
  obtain ⟨G, -, x, -⟩ := Gen.stmts_emits _ hS₁ h₂
  refine ⟨g₁.finished, g₁.chunk.code.toList, compile_ok_iff.mpr ⟨p.firstBad?_of_append hp hb, g₁, h₁, rfl⟩,
    g₁.code_finished, ?_, ?_⟩
  · rw [g.code_finished, x.code, List.append_assoc]
    exact List.prefix_append ..
  · simp [Generator.consts_finished, x.consts]

/-- The code of a program is that of the direct generator with a halt behind it, and so is the code appended for a
statement wherever it stands. Hence every jump leads to the start of the other branch, behind its statement or back
to the start of its loop; completing a jump changes no other instruction; and what stands in front of some code is
compiled as it would be alone. -/
theorem compile_eq_direct {p : Program} {c : Chunk} (h : (compile p).result = .ok c) :
    (∃ F, Stmt.codeAll? .empty 0 p.body = some F ∧
      c.code.toList = F.code.map (·.instruction) ++ [.abc Op.halt.code 0 0 0] ∧
      c.consts.toList = F.consts.map .const) ∧
    (∀ (i : Nat) (q : Instruction) (d : Int), c.code[i]? = some q → q.displacement? = some d →
      ∃ target : Nat, (target : Int) = i + d ∧ JumpsAll .empty 0 0 p.body i target) ∧
    (∀ (g g' : Generator) (index target : Nat) (pos : Position), Gen.land index target pos g = .ok () g' →
      (∃ i, g.chunk.code[index]? = some i ∧ i.isJump = true ∧
        g'.chunk.code[index]? = some (.asbx i.opcode i.a (Int16.ofInt (target - index)))) ∧
      ∀ j, j ≠ index → g'.chunk.code[j]? = g.chunk.code[j]?) ∧
    (∀ (S : Scope) (g g' : Generator) (s : Stmt), Gen.Stands g S → Gen.stmt s g = .ok () g' →
      ∃ F, s.code? S g.chunk.consts.size = some F ∧
        g'.chunk.code.toList = g.chunk.code.toList ++ F.code.map (·.instruction) ∧
        g'.chunk.consts.toList = g.chunk.consts.toList ++ F.consts.map .const) ∧
    ∀ p₁ p₂ : Program, p.body = p₁.body ++ p₂.body →
      ∃ c₁ X, (compile p₁).result = .ok c₁ ∧ c₁.code.toList = X ++ [.abc Op.halt.code 0 0 0] ∧
        X <+: c.code.toList ∧ c₁.consts.toList <+: c.consts.toList := by
  obtain ⟨F, hF⟩ := compile_compiled h
  refine ⟨⟨F, hF.body.codeAll?_eq, hF.code, hF.consts⟩, ?_, ?_, ?_, ?_⟩
  · intro i q d hq hd
    rcases hF.code_cases hq with ⟨q', hq', rfl⟩ | ⟨-, rfl⟩
    · obtain ⟨target, ht, hj⟩ := @stmts_leads _ _ 0 _ _ hF.body i d ⟨q', hq', hd⟩
      exact ⟨target, by simpa using ht, by simpa using hj.1⟩
    · rw [Instruction.displacement?_abc rfl] at hd
      cases hd
  · intro g g' index target pos hl
    exact Gen.land_patches hl
  · intro S g g' s hS hs
    obtain ⟨F, hF, x, -⟩ := Gen.stmt_emits s hS hs
    exact ⟨F, hF.code?_eq, x.code, x.consts⟩
  · intro p₁ p₂ hp
    exact compile_append hp h

/-- The program `var i = 0; while (i < 3) { if (i) print i; else if (!i) print "a"; i = i + 1; }`. -/
def branching : Program where
  body := [.var {} [105] {} (some (.literal {} (.int 0))),
    .while {} (.binary {} .less (.name {} [105]) (.literal {} (.int 3))) (.block {} [
      .ifElse {} (.name {} [105]) (.print {} (.name {} [105]))
        (.ifThen {} (.unary {} .bang (.name {} [105])) (.print {} (.literal {} (.str [97])))),
      .expr {} (.assign {} [105] (.binary {} .plus (.name {} [105]) (.literal {} (.int 1))))])]

def branchingChunk : Chunk where
  code := #[.abx Op.loadK.code 0 0, .abx Op.loadK.code 2 1, .abc (Op.compare .lt).code 1 0 2,
    .asbx Op.jmpIfNot.code 1 13, .asbx Op.jmpIfNot.code 0 3, .abc Op.print.code 0 0 0, .asbx Op.jmp.code 0 6,
    .abx Op.loadK.code 2 2, .abc (Op.compare .eq).code 1 0 2, .asbx Op.jmpIfNot.code 1 3, .abx Op.loadK.code 1 3,
    .abc Op.print.code 1 0 0, .abx Op.loadK.code 2 4, .abc Op.add.code 1 0 2, .abc Op.load.code 0 1 0,
    .asbx Op.jmp.code 0 (-14), .abc Op.halt.code 0 0 0]
  consts := #[.const (.int 0), .const (.int 3), .const (.int 0), .const (.str [97]), .const (.int 1)]
  registers := 3

theorem branching_compiled : (compile branching).result = .ok branchingChunk := by
  have h : (compile branching).result.toOption = some branchingChunk := by decide +kernel
  cases hr : (compile branching).result with
  | error f =>
    rw [hr] at h
    cases h
  | ok c =>
    rw [hr] at h
    exact congrArg _ (Option.some.inj h)

/-- The jump that ends the loop, from place 15 back to place 1, and the code of the declaration in front. -/
theorem branching_direct : (compile branching).result = .ok branchingChunk ∧
    (∃ F, Stmt.codeAll? .empty 0 branching.body = some F ∧
      branchingChunk.code.toList = F.code.map (·.instruction) ++ [.abc Op.halt.code 0 0 0]) ∧
    JumpsAll .empty 0 0 branching.body 15 1 ∧
    ∃ c₁ X, (compile ⟨branching.body.take 1, {}⟩).result = .ok c₁ ∧
      c₁.code.toList = X ++ [.abc Op.halt.code 0 0 0] ∧ X <+: branchingChunk.code.toList := by
  obtain ⟨⟨F, hF, hc, -⟩, hjumps, -, -, hprefix⟩ := compile_eq_direct branching_compiled
  refine ⟨branching_compiled, ⟨F, hF, hc⟩, ?_, ?_⟩
  · obtain ⟨target, ht, hj⟩ :=
      hjumps 15 (.asbx Op.jmp.code 0 (-14)) (-14) rfl (Instruction.displacement?_asbx rfl ..)
    have : target = 1 := by omega
    exact this ▸ hj
  · obtain ⟨c₁, X, h₁, hX, hx, -⟩ := hprefix ⟨branching.body.take 1, {}⟩ ⟨branching.body.drop 1, {}⟩ rfl
    exact ⟨c₁, X, h₁, hX, hx⟩

end RegCode
