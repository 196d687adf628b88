import RegCode.Parse
import RegCode.Proofs.Denotation

/-!
# The grammar

The terminals that a tree is written with, in order, and which trees the grammar has. A terminal is what a token
stands for, whatever its position: a name and a string are their text, a number is its value, and all other tokens
are their kind. From assignment over equality, comparison, sums, products and signs to operands, the operators bind
tighter and tighter.
-/

namespace RegCode

inductive Terminal where
  | ident (name : Bytes)
  | string (text : Bytes)
  | int (value : Int64)
  | float (value : Binary64)
  | mark (kind : Kind)
  deriving DecidableEq

/-- The token stands for the terminal. -/
def Token.Denotes (t : Token) : Terminal → Prop
  | .ident n => t.kind = .ident ∧ t.literal = n
  | .string s => t.kind = .string ∧ t.literal = s
  | .int v => t.kind = .int ∧ Numeral.IsInteger t.literal v.toInt
  | .float x => t.kind = .float ∧ Numeral.Denotes t.literal x
  | .mark k => t.kind = k ∧ k ≠ .ident ∧ k ≠ .string ∧ k ≠ .int ∧ k ≠ .float

/-- The tokens stand for the terminals, one by one. -/
def Spells (ts : List Token) (xs : List Terminal) : Prop := List.Forall₂ Token.Denotes ts xs

/-- What a token is read as. A number that cannot be read stands for nothing. -/
def Token.terminal? (t : Token) : Option Terminal :=
  match t.kind with
  | .ident => some (.ident t.literal)
  | .string => some (.string t.literal)
  | .int => (Numeral.readInt64 t.literal).map .int
  | .float => (Numeral.readBinary64 t.literal).map .float
  | k => some (.mark k)

theorem Token.terminal?_iff {t : Token} {x : Terminal} : t.terminal? = some x ↔ t.Denotes x := by
  constructor
  · intro h
    unfold Token.terminal? at h
    split at h
    · rename_i hk
      cases h
      exact ⟨hk, rfl⟩
    · rename_i hk
      cases h
      exact ⟨hk, rfl⟩
    · rename_i hk
      obtain ⟨v, hv, rfl⟩ := Option.map_eq_some_iff.mp h
      exact ⟨hk, Numeral.readInt64_iff.mp hv⟩
    · rename_i hk
      obtain ⟨v, hv, rfl⟩ := Option.map_eq_some_iff.mp h
      exact ⟨hk, Numeral.readBinary64_iff.mp hv⟩
    · rename_i hident hstring hint hfloat
      cases h
      exact ⟨rfl, hident, hstring, hint, hfloat⟩
  · intro h
    cases x with
    | ident n =>
      obtain ⟨hk, rfl⟩ := h
      rw [Token.terminal?, hk]
    | string s =>
      obtain ⟨hk, rfl⟩ := h
      rw [Token.terminal?, hk]
    | int v => rw [Token.terminal?, h.1, Numeral.readInt64_iff.mpr h.2, Option.map_some]
    | float v => rw [Token.terminal?, h.1, Numeral.readBinary64_iff.mpr h.2, Option.map_some]
    | mark k =>
      obtain ⟨rfl, hident, hstring, hint, hfloat⟩ := h
      unfold Token.terminal?
      split <;> trivial

def Kind.isMark : Kind → Bool
  | ident | string | int | float | eof | illegal | other _ => false
  | _ => true

theorem Token.terminal?_mark {t : Token} {k : Kind} (hk : t.kind = k) (h : k.isMark = true) :
    t.terminal? = some (.mark k) := by
  subst hk
  unfold Token.terminal?
  split <;> simp_all [Kind.isMark]

section
variable {t : Token} {ts us : List Token} {x : Terminal} {xs ys : List Terminal}

theorem spells_iff : Spells ts xs ↔ ts.map Token.terminal? = xs.map some := by
  rw [← List.forall₂_eq_eq_eq, List.forall₂_map_left_iff, List.forall₂_map_right_iff]
  simp only [Token.terminal?_iff]
  rfl

@[simp] theorem spells_nil : Spells [] [] := .nil

@[simp] theorem spells_cons : Spells (t :: ts) (x :: xs) ↔ t.terminal? = some x ∧ Spells ts xs := by
  rw [Token.terminal?_iff]
  exact List.forall₂_cons

theorem spells_singleton : Spells [t] [x] ↔ t.terminal? = some x := by
  simp

theorem Spells.append (h : Spells ts xs) (h' : Spells us ys) : Spells (ts ++ us) (xs ++ ys) :=
  List.rel_append h h'

end

/-! ## What trees are written with -/

def Literal.yield : Literal → List Terminal
  | int v => [.int v]
  | float x => [.float x]
  | str s => [.string s]
  | unmarked _ => []

def Expr.yield : Expr → List Terminal
  | literal _ v => v.yield
  | name _ n => [.ident n]
  | binary _ op left right => left.yield ++ .mark op :: right.yield
  | unary _ op e => .mark op :: e.yield
  | group _ e => .mark .lparen :: e.yield ++ [.mark .rparen]
  | assign _ n e => .ident n :: .mark .assign :: e.yield
  | hole => []

namespace Stmt

def yieldParams : List Param → List Terminal
  | [] => []
  | [p] => [.ident p.name]
  | p :: q :: rest => .ident p.name :: .mark .comma :: yieldParams (q :: rest)

def yieldCond (e : Expr) : List Terminal := .mark .lparen :: e.yield ++ [.mark .rparen]

mutual

def yield : Stmt → List Terminal
  | var _ n _ none => [.mark .kwVar, .ident n, .mark .semicolon]
  | var _ n _ (some e) => .mark .kwVar :: .ident n :: .mark .assign :: e.yield ++ [.mark .semicolon]
  | print _ e => .mark .kwPrint :: e.yield ++ [.mark .semicolon]
  | expr _ e => e.yield ++ [.mark .semicolon]
  | block _ body => .mark .lbrace :: yieldAll body ++ [.mark .rbrace]
  | ifThen _ e yes => .mark .kwIf :: yieldCond e ++ yield yes
  | ifElse _ e yes no => .mark .kwIf :: yieldCond e ++ yield yes ++ .mark .kwElse :: yield no
  | .while _ e body => .mark .kwWhile :: yieldCond e ++ yield body
  | ret _ none => [.mark .kwReturn, .mark .semicolon]
  | ret _ (some e) => .mark .kwReturn :: e.yield ++ [.mark .semicolon]
  | func _ n _ ps body =>
    .mark .kwFn :: .ident n :: .mark .lparen :: yieldParams ps ++ .mark .rparen :: .mark .lbrace :: yieldAll body ++
      [.mark .rbrace]
  | bad .. | hole => []

def yieldAll : List Stmt → List Terminal
  | [] => []
  | s :: rest => yield s ++ yieldAll rest

end

end Stmt

def Program.yield (p : Program) : List Terminal := Stmt.yieldAll p.body

/-! ## Which trees there are -/

/-- The operators between two operands, assignment apart. -/
def Kind.joins : Kind → Bool
  | equal | notEqual | less | lessEqual | greater | greaterEqual | plus | minus | star | slash => true
  | _ => false

def Kind.signs : Kind → Bool
  | bang | minus => true
  | _ => false

/-- The level of an operator between two operands. -/
def Kind.level : Kind → Nat
  | assign => 1
  | equal | notEqual => 2
  | less | lessEqual | greater | greaterEqual => 3
  | plus | minus => 4
  | star | slash => 5
  | _ => 0

section
variable {k : Kind}

theorem Kind.strength_eq (k : Kind) : k.strength = k.level + 1 := by
  cases k <;> rfl

theorem Kind.strength_lt (k : Kind) : k.strength < Kind.signStrength := by
  cases k <;> simp [Kind.strength, Kind.signStrength]

theorem Kind.joins_of_strength (h : Kind.weakest < k.strength) (ha : k ≠ .assign) : k.joins = true := by
  cases k <;> simp_all [Kind.strength, Kind.weakest, Kind.joins]

theorem Kind.isMark_of_strength (h : Kind.weakest < k.strength) : k.isMark = true := by
  cases k <;> simp_all [Kind.strength, Kind.weakest, Kind.isMark]

theorem Kind.weakest_le_rightStrength (k : Kind) : Kind.weakest ≤ k.rightStrength := by
  cases k <;> simp [Kind.rightStrength, Kind.strength, Kind.weakest]

theorem Kind.rightStrength_eq (ha : k ≠ .assign) : k.rightStrength = k.strength := by
  cases k <;> simp_all [Kind.rightStrength]

end

namespace Expr

/-- The level of the outermost operator. That of an operand without one is above all others. -/
def level : Expr → Nat
  | assign .. => 1
  | binary _ op _ _ => op.level
  | unary .. => 6
  | literal .. | name .. | group .. | hole => 7

/-- The left side of an operator binds no looser than it and the right side tighter; in front of an operand stand
only signs. An assignment may hold any other on its right. -/
def proper : Expr → Bool
  | literal _ (.unmarked _) => false
  | literal .. | name .. => true
  | binary _ op left right =>
    op.joins && op.level ≤ left.level && op.level < right.level && left.proper && right.proper
  | unary _ op e => op.signs && 6 ≤ e.level && e.proper
  | group _ e => e.proper
  | assign _ _ e => e.proper
  | hole => false

/-- How tightly the outermost operator of an expression binds, as the parser counts. -/
def strength : Expr → Nat
  | assign .. => Kind.assign.strength
  | binary _ op _ _ => op.strength
  | unary .. => Kind.signStrength
  | literal .. | name .. | group .. | hole => Kind.signStrength + 1

theorem strength_eq (e : Expr) : e.strength = e.level + 1 := by
  cases e with
  | binary _ op _ _ => exact op.strength_eq
  | _ => rfl

theorem proper_binary (p : Place) (op : Kind) (left right : Expr) : (binary p op left right).proper =
    (op.joins && op.strength ≤ left.strength && op.strength < right.strength && left.proper && right.proper) := by
  simp [proper, strength_eq, Kind.strength_eq]

theorem proper_unary (p : Place) (op : Kind) (e : Expr) :
    (unary p op e).proper = (op.signs && Kind.signStrength ≤ e.strength && e.proper) := by
  simp [proper, strength_eq, Kind.signStrength]

end Expr

namespace Stmt

def declares : Stmt → Bool
  | var .. | func .. => true
  | _ => false

/-- An `else` behind the statement would belong to an `if` at its end. -/
def endsOpen : Stmt → Bool
  | ifThen .. => true
  | ifElse _ _ _ no => no.endsOpen
  | .while _ _ body => body.endsOpen
  | _ => false

theorem of_not_endsOpen {x : Stmt} {P : Prop} (h : x.endsOpen = false) (h' : x.endsOpen = true) : P :=
  absurd (h.symm.trans h') Bool.false_ne_true

mutual

def proper : Stmt → Bool
  | var _ _ _ init => init.all Expr.proper
  | print _ e | expr _ e => e.proper
  | block _ body => properAll body
  | ifThen _ e yes => e.proper && !yes.declares && yes.proper
  | ifElse _ e yes no => e.proper && !yes.declares && yes.proper && !yes.endsOpen && !no.declares && no.proper
  | .while _ e body => e.proper && !body.declares && body.proper
  | ret _ value => value.all Expr.proper
  | func _ _ _ ps body => ps.length ≤ 255 && properAll body
  | bad .. | hole => false

def properAll : List Stmt → Bool
  | [] => true
  | s :: rest => s.proper && properAll rest

end

theorem proper_func (p : Place) (n : Bytes) (q : Position) (ps : List Param) (body : List Stmt) :
    (func p n q ps body).proper = (ps.length ≤ maxParams && properAll body) := rfl

end Stmt

def Program.proper (p : Program) : Bool := Stmt.properAll p.body

/-! ## Trees without places -/

def Expr.bare : Expr → Expr
  | literal _ v => literal {} v
  | name _ n => name {} n
  | binary _ op left right => binary {} op left.bare right.bare
  | unary _ op e => unary {} op e.bare
  | group _ e => group {} e.bare
  | assign _ n e => assign {} n e.bare
  | hole => hole

def Param.bare (p : Param) : Param := ⟨p.name, {}⟩

namespace Stmt

mutual

def bare : Stmt → Stmt
  | var _ n _ init => var {} n {} (init.map Expr.bare)
  | print _ e => print {} e.bare
  | expr _ e => expr {} e.bare
  | block _ body => block {} (bareAll body)
  | ifThen _ e yes => ifThen {} e.bare yes.bare
  | ifElse _ e yes no => ifElse {} e.bare yes.bare no.bare
  | .while _ e body => .while {} e.bare body.bare
  | ret _ value => ret {} (value.map Expr.bare)
  | func _ n _ ps body => func {} n {} (ps.map Param.bare) (bareAll body)
  | bad _ message => bad {} message
  | hole => hole

def bareAll : List Stmt → List Stmt
  | [] => []
  | s :: rest => s.bare :: bareAll rest

end

end Stmt

def Program.bare (p : Program) : Program := ⟨Stmt.bareAll p.body, {}⟩

end RegCode
