import RegCode.Compile

/-!
# Scopes

Declarations are counted in the order of the text, and a name denotes the last one of that name so far. A
block opens no scope, and what stands in a function body declares nothing here. The variable of the
declaration with number `c` lives in the register with number `c`.
-/

namespace RegCode

theorem toNat_register {n : Nat} (h : n < maxRegisters) : (UInt8.ofNat n).toNat = n :=
  UInt8.toNat_ofNat_of_lt' h

theorem register_ne {n : Nat} {r : Register} (h : n < r.toNat) : UInt8.ofNat n ≠ r := by
  intro e
  have hr := r.toNat_lt
  have := congrArg UInt8.toNat e
  rw [toNat_register (Nat.lt_trans h hr)] at this
  omega

/-- How many declarations there are so far, and which of them each name denotes. -/
structure Scope where
  cells : Nat
  names : Bytes → Option Nat
  bound : ∀ n c, names n = some c → c < cells

namespace Scope

def empty : Scope := ⟨0, fun _ => none, by simp⟩

def declare (S : Scope) (n : Bytes) : Scope where
  cells := S.cells + 1
  names m := if m = n then some S.cells else S.names m
  bound m c h := by
    by_cases hm : m = n
    · simp [hm] at h
      omega
    · simp only [hm, ite_false] at h
      have := S.bound m c h
      omega

@[simp] theorem cells_declare (S : Scope) (n : Bytes) : (S.declare n).cells = S.cells + 1 := rfl

theorem names_declare_self (S : Scope) (n : Bytes) : (S.declare n).names n = some S.cells := by
  simp [declare]

theorem names_declare_of_ne (S : Scope) {m n : Bytes} (h : m ≠ n) :
    (S.declare n).names m = S.names m := by
  simp [declare, h]

def register? (S : Scope) (n : Bytes) : Option Register := (S.names n).map UInt8.ofNat

/-- Whether evaluating an expression assigns to a variable that is held in `r`. -/
def assigns (S : Scope) (r : Register) : Expr → Bool
  | .assign _ n e => S.register? n == some r || assigns S r e
  | .binary _ _ left right => assigns S r left || assigns S r right
  | .unary _ _ e => assigns S r e
  | .group _ e => assigns S r e
  | .literal .. | .name .. | .hole => false

mutual

def after (S : Scope) : Stmt → Scope
  | .var _ n _ _ => S.declare n
  | .block _ body => afterAll S body
  | .ifThen _ _ yes => after S yes
  | .ifElse _ _ yes no => after (after S yes) no
  | .while _ _ body => after S body
  | .print .. | .expr .. | .ret .. | .func .. | .bad .. | .hole => S

def afterAll (S : Scope) : List Stmt → Scope
  | [] => S
  | s :: rest => afterAll (after S s) rest

end

mutual

theorem cells_le_after (S : Scope) : ∀ s : Stmt, S.cells ≤ (S.after s).cells
  | .var .. => Nat.le_succ _
  | .block _ body => cells_le_afterAll S body
  | .ifThen _ _ yes => cells_le_after S yes
  | .ifElse _ _ yes no => Nat.le_trans (cells_le_after S yes) (cells_le_after (S.after yes) no)
  | .while _ _ body => cells_le_after S body
  | .print .. | .expr .. | .ret .. | .func .. | .bad .. | .hole => Nat.le_refl _

theorem cells_le_afterAll (S : Scope) : ∀ l : List Stmt, S.cells ≤ (S.afterAll l).cells
  | [] => Nat.le_refl _
  | s :: rest => Nat.le_trans (cells_le_after S s) (cells_le_afterAll (S.after s) rest)

end

/-- How many cells may be defined where a statement begins. A loop may have run before. -/
def entry (S : Scope) : Stmt → Nat
  | .while _ _ body => (S.after body).cells
  | _ => S.cells

theorem cells_le_entry (S : Scope) (s : Stmt) : S.cells ≤ S.entry s := by
  unfold entry
  split
  · exact S.cells_le_after _
  · exact Nat.le_refl _

end Scope

/-! ## Names in expressions -/

/-- Whether a name is read or assigned in an expression. -/
def Expr.mentions (n : Bytes) : Expr → Bool
  | .name _ m => m == n
  | .assign _ m e => m == n || e.mentions n
  | .binary _ _ left right => left.mentions n || right.mentions n
  | .unary _ _ e => e.mentions n
  | .group _ e => e.mentions n
  | .literal .. | .hole => false

/-- The variables that an expression mentions have cells below `n`. -/
def Scope.Below (S : Scope) (n : Nat) (e : Expr) : Prop :=
  ∀ m c, e.mentions m = true → S.names m = some c → c < n

namespace Scope.Below

variable {S : Scope} {n : Nat} {p : Place} {op : Kind} {e e' : Expr}

attribute [local simp] Expr.mentions

theorem left (h : S.Below n (.binary p op e e')) : S.Below n e :=
  fun m c hm => h m c (by simp [hm])

theorem right (h : S.Below n (.binary p op e e')) : S.Below n e' :=
  fun m c hm => h m c (by simp [hm])

theorem operand (h : S.Below n (.unary p op e)) : S.Below n e := fun m c hm => h m c hm

theorem inner (h : S.Below n (.group p e)) : S.Below n e := fun m c hm => h m c hm

theorem value {x : Bytes} (h : S.Below n (.assign p x e)) : S.Below n e :=
  fun m c hm => h m c (by simp [hm])

theorem target {x : Bytes} {c : Nat} (h : S.Below n (.assign p x e)) (hc : S.names x = some c) : c < n :=
  h x c (by simp) hc

theorem mono {k : Nat} (h : S.Below n e) (hk : n ≤ k) : S.Below k e :=
  fun m c hm hc => Nat.lt_of_lt_of_le (h m c hm hc) hk

theorem assigns_eq_false {r : Register} : ∀ {e : Expr}, S.Below r.toNat e → S.assigns r e = false
  | .assign p x e, h => by
    have hx : S.register? x ≠ some r := by
      intro hr
      obtain ⟨c, hc, he⟩ := Option.map_eq_some_iff.mp hr
      exact register_ne (h.target hc) he
    simp [assigns, hx, assigns_eq_false h.value]
  | .binary p op left right, h => by
    simp [assigns, assigns_eq_false h.left, assigns_eq_false h.right]
  | .unary p op e, h => by simp [assigns, assigns_eq_false h.operand]
  | .group p e, h => by simp [assigns, assigns_eq_false h.inner]
  | .literal .., _ | .name .., _ | .hole, _ => rfl

theorem cells (S : Scope) (e : Expr) : S.Below S.cells e := fun m c _ => S.bound m c

/-- An initializer that does not mention the name it is for knows nothing of its cell. -/
theorem declare {n : Bytes} (h : e.mentions n = false) : (S.declare n).Below S.cells e := by
  intro m c hm hc
  have hne : m ≠ n := by
    rintro rfl
    rw [h] at hm
    cases hm
  rw [names_declare_of_ne S hne] at hc
  exact S.bound m c hc

end Scope.Below

mutual

/-- No initializer mentions the name it is for. Function bodies are not looked into. -/
def Stmt.initsApart : Stmt → Bool
  | .var _ n _ init => init.all fun e => !e.mentions n
  | .block _ body => initsApartAll body
  | .ifThen _ _ yes => yes.initsApart
  | .ifElse _ _ yes no => yes.initsApart && no.initsApart
  | .while _ _ body => body.initsApart
  | .print .. | .expr .. | .ret .. | .func .. | .bad .. | .hole => true

def Stmt.initsApartAll : List Stmt → Bool
  | [] => true
  | s :: rest => s.initsApart && initsApartAll rest

end

end RegCode
