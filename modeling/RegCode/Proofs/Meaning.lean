import RegCode.Proofs.Machine
import RegCode.Proofs.Scope

/-!
# What a program means

Every declaration has a cell of its own. Operands are evaluated from left to right, and an assignment has
the value it assigns. Arithmetic on two literal numbers is that of the numbers; other operations, and what
counts as true, are those of the machine. A cell is undefined at first, and those of the declarations in the
body of a loop are undefined again whenever the condition is evaluated. Where an undefined cell is read there
is no meaning.
-/

namespace RegCode.Machine

abbrev Store (M : Machine) := Nat → Option M.Value

section
variable {M : Machine}

def Store.set (σ : M.Store) (c : Nat) (v : M.Value) : M.Store := fun c' => if c' = c then some v else σ c'

def Store.forget (σ : M.Store) (lo hi : Nat) : M.Store := fun c => if lo ≤ c ∧ c < hi then none else σ c

theorem Store.set_self (σ : M.Store) (c : Nat) (v : M.Value) : σ.set c v c = some v := by
  simp [Store.set]

theorem Store.set_of_ne (σ : M.Store) {c c' : Nat} (v : M.Value) (h : c' ≠ c) : σ.set c v c' = σ c' := by
  simp [Store.set, h]

theorem Store.forget_eq_some {σ : M.Store} {lo hi c : Nat} {v : M.Value} :
    σ.forget lo hi c = some v ↔ ¬ (lo ≤ c ∧ c < hi) ∧ σ c = some v := by
  unfold Store.forget
  by_cases h : lo ≤ c ∧ c < hi
  · simp [h]
  · simp only [h, ite_false, not_false_eq_true, true_and]

end

/-! ## Literals and operators -/

def denoted : Literal → Const
  | .int v => .int v
  | .float x => .float x
  | .str s | .unmarked s => .str s

/-- The number that an expression is, if it is a literal one. -/
def numeral? : Expr → Option Binary64
  | .literal _ (.int v) => some (.ofInt v.toInt)
  | .literal _ (.float x) => some x
  | _ => none

/-- What `+`, `-`, `*` and `/` make of two literal numbers. -/
def calculated? (op : Kind) (left right : Expr) : Option Binary64 :=
  match op, numeral? left, numeral? right with
  | .plus, some x, some y => some (x.add y)
  | .minus, some x, some y => some (x.sub y)
  | .star, some x, some y => some (x.mul y)
  | .slash, some x, some y => some (x.div y)
  | _, _, _ => none

/-- What `-` makes of a literal number, which stays whole if it was. -/
def negated? : Expr → Option Const
  | .literal _ (.int v) => some (.int (-v))
  | .literal _ (.float x) => some (.float x.neg)
  | _ => none

def operator? : Kind → Option Op
  | .plus => some .add
  | .minus => some .sub
  | .star => some .mul
  | .slash => some .div
  | .less => some (.compare .lt)
  | .lessEqual => some (.compare .le)
  | .greater => some (.compare .gt)
  | .greaterEqual => some (.compare .ge)
  | .equal => some (.compare .eq)
  | .notEqual => some (.compare .ne)
  | _ => none

/-! ## Expressions -/

/-- The value of an expression and the cells behind it. -/
def eval (M : Machine) (S : Scope) : Expr → M.Store → Option (M.Value × M.Store)
  | .literal _ v, σ => some (M.const (denoted v), σ)
  | .name _ n, σ => do
    let c ← S.names n
    let v ← σ c
    return (v, σ)
  | .group _ e, σ => eval M S e σ
  | .binary _ op left right, σ =>
    match calculated? op left right with
    | some x => some (M.const (.float x), σ)
    | none => do
      let (a, σ) ← eval M S left σ
      let (b, σ) ← eval M S right σ
      let o ← operator? op
      let v ← M.operate o a b
      return (v, σ)
  | .unary _ op e, σ =>
    match op with
    | .minus =>
      match negated? e with
      | some k => some (M.const k, σ)
      | none => do
        let (a, σ) ← eval M S e σ
        let v ← M.operate .sub (M.const (.int 0)) a
        return (v, σ)
    | .bang => do
      let (a, σ) ← eval M S e σ
      let v ← M.operate (.compare .eq) a (M.const (.int 0))
      return (v, σ)
    | _ => none
  | .assign _ n e, σ => do
    let c ← S.names n
    let (v, σ) ← eval M S e σ
    return (v, σ.set c v)
  | .hole, _ => none

/-! The compiler agrees with this on what it works out itself, and on the operations. -/

theorem denoted_eq (v : Literal) : denoted v = v.const := by
  cases v <;> rfl

theorem numeral?_eq (e : Expr) : numeral? e = e.number? := by
  cases e with
  | literal p v => cases v <;> rfl
  | _ => rfl

theorem calculated?_eq (op : Kind) (left right : Expr) : calculated? op left right = Expr.fold? op left right := by
  unfold calculated? Expr.fold?
  rw [numeral?_eq, numeral?_eq]
  cases left.number? with
  | none => cases op <;> rfl
  | some x =>
    cases right.number? with
    | none => cases op <;> rfl
    | some y => cases op <;> rfl

theorem negated?_eq (e : Expr) : negated? e = e.negate? := by
  cases e with
  | literal p v => cases v <;> rfl
  | _ => rfl

theorem operator?_eq (op : Kind) : operator? op = op.operation? := by
  cases op <;> rfl

section
variable {M : Machine} {S : Scope} {σ σ' : M.Store} {v : M.Value} {p : Place} {n : Bytes} {op : Kind}
  {e left right : Expr}

theorem eval_name (h : M.eval S (.name p n) σ = some (v, σ')) :
    ∃ c, S.names n = some c ∧ σ c = some v ∧ σ' = σ := by
  obtain ⟨c, hc, h⟩ := Option.bind_eq_some_iff.mp h
  obtain ⟨w, hw, h⟩ := Option.bind_eq_some_iff.mp h
  cases h
  exact ⟨c, hc, hw, rfl⟩

theorem eval_binary (hf : Expr.fold? op left right = none)
    (h : M.eval S (.binary p op left right) σ = some (v, σ')) :
    ∃ a σ₁ b o, M.eval S left σ = some (a, σ₁) ∧ M.eval S right σ₁ = some (b, σ') ∧
      op.operation? = some o ∧ M.operate o a b = some v := by
  simp only [eval, calculated?_eq, hf] at h
  obtain ⟨⟨a, σ₁⟩, ha, h⟩ := Option.bind_eq_some_iff.mp h
  obtain ⟨⟨b, σ₂⟩, hb, h⟩ := Option.bind_eq_some_iff.mp h
  obtain ⟨o, ho, h⟩ := Option.bind_eq_some_iff.mp h
  rw [operator?_eq] at ho
  obtain ⟨w, hw, h⟩ := Option.bind_eq_some_iff.mp h
  cases h
  exact ⟨a, σ₁, b, o, ha, hb, ho, hw⟩

theorem eval_minus (hn : e.negate? = none) (h : M.eval S (.unary p .minus e) σ = some (v, σ')) :
    ∃ a, M.eval S e σ = some (a, σ') ∧ M.operate .sub (M.const (.int 0)) a = some v := by
  simp only [eval, negated?_eq, hn] at h
  obtain ⟨⟨a, σ₁⟩, ha, h⟩ := Option.bind_eq_some_iff.mp h
  obtain ⟨w, hw, h⟩ := Option.bind_eq_some_iff.mp h
  cases h
  exact ⟨a, ha, hw⟩

theorem eval_bang (h : M.eval S (.unary p .bang e) σ = some (v, σ')) :
    ∃ a, M.eval S e σ = some (a, σ') ∧ M.operate (.compare .eq) a (M.const (.int 0)) = some v := by
  obtain ⟨⟨a, σ₁⟩, ha, h⟩ := Option.bind_eq_some_iff.mp h
  obtain ⟨w, hw, h⟩ := Option.bind_eq_some_iff.mp h
  cases h
  exact ⟨a, ha, hw⟩

theorem eval_unary (h : M.eval S (.unary p op e) σ = some (v, σ')) :
    (∃ k, op = .minus ∧ e.negate? = some k ∧ v = M.const k ∧ σ' = σ) ∨
    (∃ a, op = .minus ∧ e.negate? = none ∧ M.eval S e σ = some (a, σ') ∧
      M.operate .sub (M.const (.int 0)) a = some v) ∨
    ∃ a, op = .bang ∧ M.eval S e σ = some (a, σ') ∧ M.operate (.compare .eq) a (M.const (.int 0)) = some v := by
  by_cases hm : op = .minus
  · subst hm
    cases hn : e.negate? with
    | some k =>
      simp only [eval, negated?_eq, hn] at h
      cases h
      exact .inl ⟨k, rfl, rfl, rfl, rfl⟩
    | none =>
      obtain ⟨a, h₁, hv⟩ := eval_minus hn h
      exact .inr (.inl ⟨a, rfl, rfl, h₁, hv⟩)
  · by_cases hb : op = .bang
    · subst hb
      obtain ⟨a, h₁, hv⟩ := eval_bang h
      exact .inr (.inr ⟨a, rfl, h₁, hv⟩)
    · simp only [eval] at h
      cases h

theorem eval_assign (h : M.eval S (.assign p n e) σ = some (v, σ')) :
    ∃ c σ₁, S.names n = some c ∧ M.eval S e σ = some (v, σ₁) ∧ σ' = σ₁.set c v := by
  obtain ⟨c, hc, h⟩ := Option.bind_eq_some_iff.mp h
  obtain ⟨⟨w, σ₁⟩, hw, h⟩ := Option.bind_eq_some_iff.mp h
  cases h
  exact ⟨c, σ₁, hc, hw, rfl⟩

end

def Store.Below {M : Machine} (σ : M.Store) (n : Nat) : Prop := ∀ c v, σ c = some v → c < n

theorem Store.Below.set {M : Machine} {σ : M.Store} {n c : Nat} (h : σ.Below n) (hc : c < n) (v : M.Value) :
    (σ.set c v).Below n := by
  intro c' w hw
  by_cases he : c' = c
  · omega
  · rw [Store.set_of_ne σ v he] at hw
    exact h c' w hw

theorem eval_below {M : Machine} {S : Scope} {n : Nat} : ∀ (e : Expr) {σ σ' : M.Store} {v : M.Value},
    S.Below n e → σ.Below n → M.eval S e σ = some (v, σ') → σ'.Below n
  | .literal _ _, _, _, _, _, hσ, h => by
    cases h
    exact hσ
  | .name _ _, _, _, _, _, hσ, h => by
    obtain ⟨-, -, -, rfl⟩ := eval_name h
    exact hσ
  | .group _ e, _, _, _, he, hσ, h => eval_below e he.inner hσ h
  | .binary _ op left right, _, _, _, he, hσ, h => by
    cases hf : Expr.fold? op left right with
    | some x =>
      simp only [eval, calculated?_eq, hf] at h
      cases h
      exact hσ
    | none =>
      obtain ⟨_, _, _, _, h₁, h₂, -, -⟩ := eval_binary hf h
      exact eval_below right he.right (eval_below left he.left hσ h₁) h₂
  | .unary _ op e, _, _, _, he, hσ, h => by
    rcases eval_unary h with ⟨_, -, -, -, rfl⟩ | ⟨_, -, -, h₁, -⟩ | ⟨_, -, h₁, -⟩
    · exact hσ
    · exact eval_below e he.operand hσ h₁
    · exact eval_below e he.operand hσ h₁
  | .assign _ _ e, _, _, _, he, hσ, h => by
    obtain ⟨c, σ₁, hc, h₁, rfl⟩ := eval_assign h
    exact (eval_below e he.value hσ h₁).set (he.target hc) _
  | .hole, _, _, _, _, _, h => by cases h

mutual

/-- A statement in the scope `S` prints `out` and leaves the cells as `σ'`. -/
inductive Exec (M : Machine) : Scope → Stmt → M.Store → (out : List M.Value) → (σ' : M.Store) → Prop
  | print {S p e σ v σ'} : M.eval S e σ = some (v, σ') → Exec M S (.print p e) σ [v] σ'
  | declare {S p n q σ} : Exec M S (.var p n q none) σ [] σ
  | init {S p n q e σ v σ'} : M.eval (S.declare n) e σ = some (v, σ') →
      Exec M S (.var p n q (some e)) σ [] (σ'.set S.cells v)
  | expr {S p e σ v σ'} : M.eval S e σ = some (v, σ') → Exec M S (.expr p e) σ [] σ'
  | block {S p body σ out σ'} : ExecAll M S body σ out σ' → Exec M S (.block p body) σ out σ'
  | ifThenTrue {S p e yes σ v σ₁ out σ'} : M.eval S e σ = some (v, σ₁) → M.test v = some true →
      Exec M S yes σ₁ out σ' → Exec M S (.ifThen p e yes) σ out σ'
  | ifThenFalse {S p e yes σ v σ'} : M.eval S e σ = some (v, σ') → M.test v = some false →
      Exec M S (.ifThen p e yes) σ [] σ'
  | ifElseTrue {S p e yes no σ v σ₁ out σ'} : M.eval S e σ = some (v, σ₁) → M.test v = some true →
      Exec M S yes σ₁ out σ' → Exec M S (.ifElse p e yes no) σ out σ'
  | ifElseFalse {S p e yes no σ v σ₁ out σ'} : M.eval S e σ = some (v, σ₁) → M.test v = some false →
      Exec M (S.after yes) no σ₁ out σ' → Exec M S (.ifElse p e yes no) σ out σ'
  | whileTrue {S p e body σ v σ₁ out σ₂ out' σ'} :
      M.eval S e (σ.forget S.cells (S.after body).cells) = some (v, σ₁) → M.test v = some true →
      Exec M S body σ₁ out σ₂ → Exec M S (.while p e body) σ₂ out' σ' →
      Exec M S (.while p e body) σ (out ++ out') σ'
  | whileFalse {S p e body σ v σ'} :
      M.eval S e (σ.forget S.cells (S.after body).cells) = some (v, σ') → M.test v = some false →
      Exec M S (.while p e body) σ [] σ'
  | ret {S p e σ} : Exec M S (.ret p e) σ [] σ
  | func {S p n q ps body σ} : Exec M S (.func p n q ps body) σ [] σ

inductive ExecAll (M : Machine) : Scope → List Stmt → M.Store → (out : List M.Value) → (σ' : M.Store) → Prop
  | nil {S σ} : ExecAll M S [] σ [] σ
  | cons {S s rest σ out σ₁ out' σ'} : Exec M S s σ out σ₁ → ExecAll M (S.after s) rest σ₁ out' σ' →
      ExecAll M S (s :: rest) σ (out ++ out') σ'

end

/-- A program comes to its end, prints `out` and leaves the cells as `σ`. -/
def Means (M : Machine) (p : Program) (out : List M.Value) (σ : M.Store) : Prop :=
  M.ExecAll .empty p.body (fun _ => none) out σ

end RegCode.Machine
