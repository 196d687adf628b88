import Mathlib.Data.List.Chain
import RegCode.Proofs.ErrorOrder

/-!
# Footing

A parser takes tokens that it has a use for. Illegal ones are passed over only while it looks for a boundary, and
behind a boundary stands a semicolon or what starts a statement. So no error is ever reported at an illegal token
that stands directly behind another one. The first part says of anything what it takes for reading to keep it.

Tokens other than illegal ones, blanks and comments end in ASCII characters. So at the place of an error, either the
token begins with an ASCII character or the text in front of it ends in one.
-/

namespace RegCode

open TokenStream

/-! ## What reading keeps -/

/-- The steps of reading keep `P` as long as no phrase is given up. Giving one up comes to `E`, and from there
recovery comes to `P` again. Tokens that are taken have `T`. -/
structure Upheld (P E : TokenStream → Prop) (T : Token → Prop) : Prop where
  advance {s : TokenStream} {t : Token} {rest : List Token} : P s → s.rest = t :: rest → t.kind ≠ .illegal →
    P s.advance ∧ T t
  refuse {s : TokenStream} (f : SyntaxFault) : P s → P (s.report s.current f) ∧ E (s.report s.current f)
  report {s : TokenStream} {t : Token} (f : SyntaxFault) : P s → T t → P (s.report t f) ∧ E (s.report t f)
  recover {s : TokenStream} (moved : Bool) : E s → P (s.recover moved)

namespace Reading

variable {α β : Type} {start s : TokenStream} {P E : TokenStream → Prop}

def Upholds (P E : TokenStream → Prop) : Reading α start → Prop
  | .done _ next _ => P next
  | .fail _ next _ _ => E next

theorem Upholds.after {r : Reading α s} (h : r.Upholds P E) (lt : s.left < start.left) :
    (r.after lt).Upholds P E := by
  cases r <;> exact h

theorem Upholds.follow {r : Reading α start} {f : α → (s : TokenStream) → s.left < start.left → Reading β start}
    (h : r.Upholds P E) (hf : ∀ a s lt, P s → (f a s lt).Upholds P E) : (r.follow f).Upholds P E := by
  cases r with
  | done a s lt => exact hf a s lt h
  | fail => exact h

theorem Upholds.bind {r : Reading α start} {f : α → (s : TokenStream) → s.left < start.left → Reading β s}
    (h : r.Upholds P E) (hf : ∀ a s lt, P s → (f a s lt).Upholds P E) : (r.bind f).Upholds P E :=
  h.follow fun a s lt hs => (hf a s lt hs).after lt

theorem Upholds.chain {r : Reading α s} {lt : s.left < start.left}
    {f : α → (s' : TokenStream) → s'.left < s.left → Reading β start} (h : r.Upholds P E)
    (hf : ∀ a s' lt', P s' → (f a s' lt').Upholds P E) : (r.chain lt f).Upholds P E := by
  cases r with
  | done a s' lt' => exact hf a s' lt' h
  | fail => exact h

theorem Upholds.map {r : Reading α start} (h : r.Upholds P E) (f : α → Token → β) : (r.map f).Upholds P E := by
  cases r <;> exact h

end Reading

namespace Upheld

variable {P E : TokenStream → Prop} {T : Token → Prop} {s start next : TokenStream} {t : Token} {rest : List Token}
  {k : Kind}

section
variable (h : Upheld P E T)
include h

theorem reject {α : Type} (hs : P s) (f : SyntaxFault) : (s.reject f : Reading α s).Upholds P E := (h.refuse _ hs).2

theorem expect (hs : P s) (hk : k ≠ .illegal) (f : SyntaxFault) : (s.expect k f).Upholds P E := by
  cases hr : s.rest with
  | nil =>
    rw [expect_nil hr]
    exact h.reject hs f
  | cons t rest =>
    rw [expect_eq hr]
    by_cases ht : t.kind = k
    · rw [if_pos ht]
      exact (h.advance hs hr (ht ▸ hk)).1
    · rw [if_neg ht]
      exact h.reject hs f

theorem skip {lt : next.left < s.left} (hs : P s) (hk : k ≠ .illegal) (hskip : s.skip? k = some ⟨next, lt⟩) :
    P next := by
  unfold skip? at hskip
  split at hskip
  · cases hskip
  · rename_i t rest hr
    split at hskip
    · rename_i ht
      cases hskip
      exact (h.advance hs hr (ht ▸ hk)).1
    · cases hskip

/-! ### Expressions -/

theorem number (hs : P s) (ht : T t) (v : Option Literal) (f : SyntaxFault) (lt : s.left < start.left) :
    (number t v f s lt).Upholds P E := by
  cases v with
  | some v => exact hs
  | none => exact (h.report f hs ht).2

theorem operand (ih : ∀ least s₁, s₁.left < s.left → Kind.weakest ≤ least → P s₁ → (expr least s₁).Upholds P E)
    (hs : P s) :
    (operand s).Upholds P E := by
  cases hr : s.rest with
  | nil =>
    rw [operand_nil hr]
    exact h.reject hs _
  | cons t rest =>
    have hlt := left_advance_lt hr
    have htake {k : Kind} (hk : t.kind = k) (hne : k ≠ .illegal) : P s.advance ∧ T t := h.advance hs hr (hk ▸ hne)
    rw [operand_eq hr]
    split
    · next hk =>
      obtain ⟨hadv, ht⟩ := htake hk Kind.noConfusion
      exact h.number hadv ht _ _ hlt
    · next hk =>
      obtain ⟨hadv, ht⟩ := htake hk Kind.noConfusion
      exact h.number hadv ht _ _ hlt
    · next hk => exact (htake hk Kind.noConfusion).1
    · next hk => exact (htake hk Kind.noConfusion).1
    · next hk =>
      refine ((ih _ _ hlt (Nat.le_refl _) (htake hk Kind.noConfusion).1).bind fun inner s₁ lt₁ hs₁ => ?_).after hlt
      exact (h.expect hs₁ Kind.noConfusion _).map _
    · next hk => exact ((ih _ _ hlt (by decide) (htake hk Kind.noConfusion).1).map _).after hlt
    · next hk => exact ((ih _ _ hlt (by decide) (htake hk Kind.noConfusion).1).map _).after hlt
    · exact h.reject hs _

theorem joined (left right : Expr) (hs : P s) (ht : T t) : P (joined left t right s).2 := by
  unfold TokenStream.joined
  split
  · split
    · exact hs
    · exact (h.report _ hs ht).1
  · exact hs

theorem operators {n least : Nat}
    (ih : ∀ least s₁, s₁.left < n → Kind.weakest ≤ least → P s₁ → (expr least s₁).Upholds P E)
    (hleast : Kind.weakest ≤ least) (left : Expr) (hn : s.left ≤ n) (hs : P s) (lt : s.left < start.left) :
    (operators start least left s lt).Upholds P E := by
  induction hm : s.left using Nat.strongRecOn generalizing left s with
  | ind m ihm =>
    subst hm
    by_cases hstop : ahead s.rest ≤ least
    · rw [operators_stop lt hstop]
      exact hs
    · cases hr : s.rest with
      | nil => exact absurd (by rw [hr]; exact Nat.zero_le _) hstop
      | cons op rest =>
        rw [hr, ahead, Nat.not_le] at hstop
        have hlt := left_advance_lt hr
        have hop : op.kind ≠ .illegal := by
          intro hk
          rw [hk] at hstop
          exact absurd hstop (Nat.not_lt.mpr hleast)
        have hright : Kind.weakest ≤ op.kind.rightStrength := by
          unfold Kind.rightStrength
          split
          · exact Nat.le_refl _
          · exact Nat.le_of_lt (Nat.lt_of_le_of_lt hleast hstop)
        obtain ⟨hadv, ht⟩ := h.advance hs hr hop
        rw [operators_eq lt hr hstop]
        refine (ih _ s.advance (by omega) hright hadv).chain fun right next lt' hnext => ?_
        have hleft := left_joined left op right next
        exact ihm _ (by omega) _ (by omega) (h.joined left right hnext ht) _ rfl

theorem expr {least : Nat} (hleast : Kind.weakest ≤ least) (hs : P s) : (expr least s).Upholds P E := by
  have hall : ∀ n least s, s.left < n → Kind.weakest ≤ least → P s → (TokenStream.expr least s).Upholds P E := by
    intro n
    induction n with
    | zero => exact fun _ s hs => absurd hs (Nat.not_lt_zero _)
    | succ n ih =>
      intro least s hn hleast hs
      rw [expr_eq]
      refine (h.operand (fun least s₁ hlt => ih least s₁ (by omega)) hs).follow fun e s₁ lt hs₁ => ?_
      exact h.operators ih hleast e (by omega) hs₁ lt
  exact hall (s.left + 1) least s (Nat.lt_succ_self _) hleast hs

/-! ### Statements -/

theorem closedExpr {α : Type} (g : Expr → Token → Token → α) (hk : k ≠ .illegal) (f : SyntaxFault) (hs : P s) :
    ((TokenStream.expr Kind.weakest s).bind fun e s₁ _ => (s₁.expect k f).map (g e)).Upholds P E :=
  (h.expr (Nat.le_refl _) hs).bind fun _ _ _ hs₁ => (h.expect hs₁ hk f).map _

theorem finish (first : Token) (f : SyntaxFault) (node : Place → Stmt) (hs : P s) :
    (finish first f node s).Upholds P E :=
  (h.expect hs Kind.noConfusion f).map _

theorem varDecl (first : Token) (hs : P s) : (varDecl first s).Upholds P E := by
  unfold TokenStream.varDecl
  refine (h.expect hs Kind.noConfusion _).bind fun name s₁ _ hs₁ => ?_
  dsimp only
  split
  · rename_i next lt hskip
    exact (h.closedExpr _ Kind.noConfusion _ (h.skip hs₁ Kind.noConfusion hskip)).after lt
  · exact h.finish first _ _ hs₁

theorem returnStmt (first : Token) (hs : P s) : (returnStmt first s).Upholds P E := by
  unfold TokenStream.returnStmt
  split
  · exact h.finish first _ _ hs
  · exact h.closedExpr _ Kind.noConfusion _ hs

theorem exprStmt (hs : P s) : (exprStmt s).Upholds P E := h.closedExpr _ Kind.noConfusion _ hs

theorem condition (opening closing : SyntaxFault) (hs : P s) : (condition opening closing s).Upholds P E :=
  (h.expect hs Kind.noConfusion _).bind fun _ _ _ hs₁ => h.closedExpr _ Kind.noConfusion _ hs₁

theorem counted (acc : List Param) (hs : P s) : P (counted acc s) := by
  unfold TokenStream.counted
  split
  · exact hs
  · exact (h.refuse _ hs).1

theorem parameters (acc : List Param) (hs : P s) (lt : s.left < start.left) :
    (parameters start acc s lt).Upholds P E := by
  induction hn : s.left using Nat.strongRecOn generalizing acc s with
  | ind n ih =>
    subst hn
    have hc := left_counted acc s
    rw [parameters_eq rfl lt (hc ▸ lt)]
    refine (h.expect (h.counted acc hs) Kind.noConfusion _).chain fun t s₁ lt₁ hs₁ => ?_
    unfold moreParameters
    split
    · rename_i next lt₂ hskip
      exact ih _ (by omega) _ (h.skip hs₁ Kind.noConfusion hskip) _ rfl
    · exact ((h.expect hs₁ Kind.noConfusion _).map _).after _

theorem parameterList (hs : P s) : (parameterList s).Upholds P E := by
  refine (h.expect hs Kind.noConfusion _).follow fun bracket s₁ lt hs₁ => ?_
  split
  · rename_i next lt' hskip
    exact h.skip hs₁ Kind.noConfusion hskip
  · exact h.parameters [] hs₁ lt

/-! ### Declarations -/

end

structure Below (P E : TokenStream → Prop) (n : Nat) : Prop where
  statement {s : TokenStream} : s.left < n → P s → (statement s).Upholds P E
  declaration {s : TokenStream} (first : Token) (rest : List Token) (hr : s.rest = first :: rest) :
  s.left < n → P s →
    P (declaration s first rest hr).1.2
  block {start s : TokenStream} (acc : List Stmt) (lt : s.left < start.left) : s.left < n → P s →
    (block start acc s lt).Upholds P E

theorem Below.mono {m n : Nat} (h : Below P E n) (hm : m ≤ n) : Below P E m :=
  ⟨fun hlt => h.statement (by omega), fun first rest hr hlt => h.declaration first rest hr (by omega),
    fun acc lt hlt => h.block acc lt (by omega)⟩

section
variable (h : Upheld P E T)
include h

theorem ifStmt {n : Nat} (ih : Below P E n) (first : Token) (hn : s.left ≤ n) (hs : P s) :
    (ifStmt first s).Upholds P E := by
  rw [ifStmt_eq]
  refine (h.condition _ _ hs).bind fun cond s₁ lt₁ hs₁ => ?_
  refine (ih.statement (by omega) hs₁).follow fun yes s₂ lt₂ hs₂ => ?_
  unfold elseBranch
  split
  · rename_i next lt₃ hskip
    exact ((ih.statement (by omega) (h.skip hs₂ Kind.noConfusion hskip)).map _).after _
  · exact hs₂

theorem whileStmt {n : Nat} (ih : Below P E n) (first : Token) (hn : s.left ≤ n) (hs : P s) :
    (whileStmt first s).Upholds P E := by
  rw [TokenStream.whileStmt]
  refine (h.condition _ _ hs).bind fun cond s₁ lt₁ hs₁ => ?_
  exact (ih.statement (by omega) hs₁).map _

theorem funcDecl {n : Nat} (ih : Below P E n) (first : Token) (hn : s.left ≤ n) (hs : P s) :
    (funcDecl first s).Upholds P E := by
  rw [TokenStream.funcDecl]
  refine (h.expect hs Kind.noConfusion _).bind fun name s₁ lt₁ hs₁ => ?_
  refine (h.parameterList hs₁).bind fun params s₂ lt₂ hs₂ => ?_
  refine (h.expect hs₂ Kind.noConfusion _).follow fun opening s₃ lt₃ hs₃ => ?_
  exact (ih.block [] lt₃ (by omega) hs₃).map _

theorem statement (ih : Below P E s.left) (hs : P s) : (statement s).Upholds P E := by
  cases hr : s.rest with
  | nil =>
    rw [statement_nil hr]
    exact h.exprStmt hs
  | cons t rest =>
    have hlt := left_advance_lt hr
    have htake {k : Kind} (hk : t.kind = k) (hne : k ≠ .illegal) : P s.advance := (h.advance hs hr (hk ▸ hne)).1
    rw [statement_eq hr]
    split
    · next hk => exact (h.ifStmt ih t (Nat.le_of_lt hlt) (htake hk Kind.noConfusion)).after hlt
    · next hk => exact (h.whileStmt ih t (Nat.le_of_lt hlt) (htake hk Kind.noConfusion)).after hlt
    · next hk => exact (h.returnStmt t (htake hk Kind.noConfusion)).after hlt
    · next hk => exact (h.closedExpr _ Kind.noConfusion _ (htake hk Kind.noConfusion)).after hlt
    · next hk => exact (ih.block [] hlt hlt (htake hk Kind.noConfusion)).map _
    · exact h.exprStmt hs

theorem declaration {n : Nat} (ih : Below P E n) (hS : (TokenStream.statement s).Upholds P E) (hn : s.left ≤ n)
    (first : Token) (rest : List Token) (hr : s.rest = first :: rest) (hs : P s) :
    P (declaration s first rest hr).1.2 := by
  have hlt := left_advance_lt hr
  have hattempt : (attempt s first hlt).Upholds P E := by
    have htake {k : Kind} (hk : first.kind = k) (hne : k ≠ .illegal) : P s.advance := (h.advance hs hr (hk ▸ hne)).1
    unfold attempt
    split
    · next hk => exact (h.funcDecl ih first (by omega) (htake hk Kind.noConfusion)).after hlt
    · next hk => exact (h.varDecl first (htake hk Kind.noConfusion)).after hlt
    · exact hS
  rw [declaration_eq]
  revert hattempt
  cases attempt s first hlt with
  | done st next lt => exact id
  | fail f next moved le => exact h.recover moved

theorem block {n : Nat} (ih : Below P E n) (hn : s.left ≤ n) (acc : List Stmt)
    (hD : ∀ first rest (hr : s.rest = first :: rest), P (TokenStream.declaration s first rest hr).1.2) (hs : P s)
    (lt : s.left < start.left) : (block start acc s lt).Upholds P E := by
  cases hr : s.rest with
  | nil =>
    rw [block_nil acc lt hr]
    exact (h.reject hs _).after lt
  | cons t rest =>
    rw [block_cons acc lt hr]
    by_cases hk : t.kind = .rbrace
    · rw [if_pos hk]
      exact (h.advance hs hr (hk ▸ Kind.noConfusion)).1
    · rw [if_neg hk]
      have := (TokenStream.declaration s t rest hr).2
      exact ih.block _ _ (by omega) (hD t rest hr)

theorem below (n : Nat) : Below P E n := by
  induction n with
  | zero => exact ⟨fun h => absurd h (Nat.not_lt_zero _), fun _ _ _ h => absurd h (Nat.not_lt_zero _),
      fun _ _ h => absurd h (Nat.not_lt_zero _)⟩
  | succ n ih =>
    have hS {s : TokenStream} (hn : s.left < n + 1) (hs : P s) : (TokenStream.statement s).Upholds P E :=
      h.statement (ih.mono (by omega)) hs
    have hD {s : TokenStream} (first : Token) (rest : List Token) (hr : s.rest = first :: rest)
      (hn : s.left < n + 1)
        (hs : P s) : P (TokenStream.declaration s first rest hr).1.2 :=
      h.declaration ih (hS hn hs) (by omega) first rest hr hs
    exact ⟨hS, hD, fun acc lt hn hs =>
      h.block ih (by omega) acc (fun first rest hr => hD first rest hr hn hs) hs lt⟩

theorem declarations (acc : List Stmt) (hs : P s) : P (declarations acc s).2 := by
  induction hn : s.left using Nat.strongRecOn generalizing acc s with
  | ind n ih =>
    subst hn
    cases hr : s.rest with
    | nil =>
      rw [declarations_nil acc hr]
      exact hs
    | cons t rest =>
      rw [declarations_cons acc hr]
      have hd := (h.below (s.left + 1)).declaration t rest hr (Nat.lt_succ_self _) hs
      exact ih _ (TokenStream.declaration s t rest hr).2 (_ :: acc) hd rfl

end

end Upheld

/-! ## Illegal tokens -/

/-- The error is at the end, at a token that is not illegal, or at one that is not behind an illegal one. -/
def Footed (tokens : List Token) (ending : Token) (e : SyntaxError) : Prop :=
  ∃ t f, e = .atToken t f ∧ (t = ending ∨ t ∈ tokens ∧ t.kind ≠ .illegal ∨
    ∃ front rest, tokens = front ++ t :: rest ∧ ∀ u ∈ front.getLast?, u.kind ≠ .illegal)

/-- Reading has come from `start` to `s`, and all errors on the way are footed. -/
structure Trod (start s : TokenStream) (used : List Token) (new : List SyntaxError) : Prop where
  passes : start.Passes s used new
  footed : ∀ e ∈ new, Footed start.rest start.ending e

/-- The same, where an illegal token is not behind another one, and none was taken if there is no error. -/
structure Firm (start s : TokenStream) (used : List Token) (new : List SyntaxError) : Prop extends
    Trod start s used new where
  apart : ∀ u ∈ used.getLast?, u.kind = .illegal → s.current.kind ≠ .illegal
  legal : new = [] → ∀ u ∈ used, u.kind ≠ .illegal

section
variable {start s : TokenStream} {t : Token} {rest used : List Token} {new : List SyntaxError}

theorem Firm.advance (h : Firm start s used new) (hr : s.rest = t :: rest) (ht : t.kind ≠ .illegal) :
    Firm start s.advance (used ++ [t]) new where
  passes := by simpa using h.passes.trans (passes_advance hr)
  footed := h.footed
  apart := by
    rw [List.getLast?_concat]
    intro u hu hk
    cases Option.mem_some_iff.mp hu
    exact absurd hk ht
  legal hnew := by
    intro u hu
    rcases List.mem_append.mp hu with hu | hu
    · exact h.legal hnew u hu
    · cases List.mem_singleton.mp hu
      exact ht

theorem Firm.report (h : Firm start s used new) {f : SyntaxFault}
    (ht : Footed start.rest start.ending (.atToken t f)) :
    Firm start (s.report t f) used (new ++ [.atToken t f]) where
  passes := by simpa using h.passes.trans (s.passes_report t f)
  footed := List.forall_mem_append.mpr ⟨h.footed, List.forall_mem_singleton.mpr ht⟩
  apart := h.apart
  legal hnew := absurd hnew (by simp)

theorem Firm.footed_current (h : Firm start s used new) (f : SyntaxFault) :
    Footed start.rest start.ending (.atToken s.current f) := by
  refine ⟨_, f, rfl, ?_⟩
  cases hr : s.rest with
  | nil =>
    left
    rw [current, hr, ← h.passes.ending]
    rfl
  | cons t rest =>
    have hcur : s.current = t := by rw [current, hr]; rfl
    have hall := h.passes.rest
    rw [hr] at hall
    rw [hcur]
    by_cases ht : t.kind = .illegal
    · exact .inr (.inr ⟨used, rest, hall, fun u hu hk => h.apart u hu hk (hcur ▸ ht)⟩)
    · exact .inr (.inl ⟨by simp [hall], ht⟩)

theorem Trod.recover (h : Trod start s used new) (hnew : new ≠ []) (hending : start.ending.kind ≠ .illegal)
    (moved : Bool) :
    ∃ used, Firm start (s.recover moved) used new := by
  obtain ⟨us, hp⟩ := s.passes_recover moved
  have hall := h.passes.trans hp
  rw [List.append_nil] at hall
  refine ⟨used ++ us, ⟨hall, h.footed⟩, fun u hu hk hcur => ?_, fun hnil => absurd hnil hnew⟩
  have hprev : (s.recover moved).prev = u := by rw [hall.prev, Option.mem_def.mp hu, Option.getD_some]
  rcases s.recover_atBoundary moved with hb | hb
  · rw [hprev, hk] at hb
    cases hb
  · cases hr : (s.recover moved).rest with
    | nil =>
      rw [current, hr, hall.ending] at hcur
      exact hending hcur
    | cons t rest =>
      have ht := hb t (by rw [hr]; rfl)
      rw [current, hr] at hcur
      have hk : t.kind = .illegal := hcur
      rw [hk] at ht
      cases ht

theorem upheld_firm (hending : start.ending.kind ≠ .illegal) : Upheld (fun s => ∃ used new, Firm start s used new)
    (fun s => ∃ used new, new ≠ [] ∧ Trod start s used new) (fun t => t ∈ start.rest ∧ t.kind ≠ .illegal) where
  advance := by
    rintro s t rest ⟨used, new, h⟩ hr ht
    refine ⟨⟨_, _, h.advance hr ht⟩, ?_, ht⟩
    rw [h.passes.rest, hr]
    simp
  refuse f := by
    rintro ⟨used, new, h⟩
    have := h.report (h.footed_current f)
    exact ⟨⟨_, _, this⟩, _, _, by simp, this.toTrod⟩
  report f := by
    rintro ⟨used, new, h⟩ ht
    have := h.report (f := f) ⟨_, f, rfl, .inr (.inl ht)⟩
    exact ⟨⟨_, _, this⟩, _, _, by simp, this.toTrod⟩
  recover moved := by
    rintro ⟨used, new, hnew, h⟩
    obtain ⟨used, h⟩ := h.recover hnew hending moved
    exact ⟨used, new, h⟩

end

/-- No error is at an illegal token that is directly behind another one, and without errors there is no illegal
token. -/
theorem parse_footed (tokens : List Token) :
    (∀ e ∈ (parse tokens).errors, Footed (ofTokens tokens).rest (ofTokens tokens).ending e) ∧
      ((parse tokens).errors = [] → ∀ t ∈ (ofTokens tokens).rest, t.kind ≠ .illegal) := by
  have hending : (ofTokens tokens).ending.kind ≠ .illegal := by
    rw [(ofTokens_kinds tokens).2]
    exact Kind.noConfusion
  have hstart : Firm (ofTokens tokens) (ofTokens tokens) [] [] := ⟨⟨.refl _, by simp⟩, by simp, by simp⟩
  obtain ⟨used, new, h⟩ := (upheld_firm hending).declarations [] ⟨_, _, hstart⟩
  have herrors : (parse tokens).errors = new := h.passes.errors
  obtain ⟨body, new', -, hp, -⟩ := declarations_course [] (ofTokens tokens)
  have hend : (declarations [] (ofTokens tokens)).2.rest = [] := by simpa using hp.rest
  rw [herrors]
  refine ⟨h.footed, fun hnil => ?_⟩
  rw [h.passes.rest, hend, List.append_nil]
  exact h.legal hnil

/-! ## Crowded tokens -/

def EndsPlain (front : Bytes) : Prop := ∀ b ∈ front.getLast?, b.toNat < 128

theorem endsPlain_append {front more : Bytes} (h : more = [] → EndsPlain front) (hmore : EndsPlain more) :
    EndsPlain (front ++ more) := by
  cases more with
  | nil =>
    rw [List.append_nil]
    exact h rfl
  | cons x more =>
    intro b hb
    rw [List.getLast?_append_cons] at hb
    exact hmore b hb

theorem endsPlain_concat (front : Bytes) {b : UInt8} (h : b.toNat < 128) : EndsPlain (front ++ [b]) := by
  intro x hx
  rw [List.getLast?_concat] at hx
  cases Option.mem_some_iff.mp hx
  exact h

theorem endsPlain_of_forall {front : Bytes} (h : ∀ b ∈ front, b.toNat < 128) : EndsPlain front :=
  fun b hb => h b (List.mem_of_getLast? hb)

namespace Lexeme

theorem isBlank_lt {b : UInt8} (h : isBlank b = true) : b.toNat < 128 := by
  simp only [isBlank, Bool.or_eq_true, decide_eq_true_eq] at h
  rcases h with ((rfl | rfl) | rfl) | rfl <;> decide

theorem endsPlain_gapStep {text rest : Bytes} {b : UInt8} (h : text.drop (gapStep text) = b :: rest)
    (hb : 128 ≤ b.toNat) : EndsPlain (text.take (gapStep text)) := by
  revert h
  fun_cases gapStep text with
  | case1 more =>
    -- a line comment goes up to a line feed or a zero byte
    intro h
    rw [Nat.add_comm, List.drop_succ_cons, List.drop_succ_cons] at h
    obtain ⟨w, after, rfl, hw, hafter⟩ := exists_run inLineComment more
    rw [takeWhile_run hw hafter, List.drop_left] at h
    have hstop := hafter b (by rw [h]; rfl)
    simp only [inLineComment, ne_eq, decide_not, Bool.and_eq_false_iff, Bool.not_eq_false',
      decide_eq_true_eq] at hstop
    rcases hstop with rfl | rfl <;> exact absurd hb (by decide)
  | case2 more =>
    intro h
    rcases blockCommentRest_cases 2 more with ⟨c, tail, rfl, -, hn⟩ | ⟨-, hn⟩
    · have htext : 47 :: 42 :: (c ++ 42 :: 47 :: tail) = (47 :: 42 :: c ++ [42]) ++ [47] ++ tail := by simp
      rw [hn, htext, List.take_left' (by simp; omega)]
      exact endsPlain_concat _ (by decide)
    · rw [hn, List.drop_of_length_le (by simp only [List.length_cons]; omega)] at h
      cases h
  | case3 =>
    intro h
    obtain ⟨w, after, rfl, hw, hafter⟩ := exists_run isBlank text
    rw [takeWhile_run hw hafter, List.take_left]
    exact endsPlain_of_forall fun x hx => isBlank_lt (hw x hx)

theorem endsPlain_gapFrom (n : Nat) {text rest : Bytes} {b : UInt8} (h : (gapFrom n text).2 = b :: rest)
    (hb : 128 ≤ b.toNat) : ∃ skipped, text = skipped ++ b :: rest ∧ EndsPlain skipped := by
  fun_induction gapFrom n text with
  | case1 n text hstop => exact ⟨[], h, by simp [EndsPlain]⟩
  | case2 n text hstep ih =>
    obtain ⟨skipped, heq, hplain⟩ := ih h
    refine ⟨text.take (gapStep text) ++ skipped, ?_, endsPlain_append (fun hnil => ?_) hplain⟩
    · rw [List.append_assoc, ← heq, List.take_append_drop]
    · rw [hnil, List.nil_append] at heq
      exact endsPlain_gapStep heq hb

theorem WordByte.lt {b : UInt8} (h : WordByte b) : b.toNat < 128 := by
  simp only [WordByte, Letter, Digit, UInt8.le_iff_toNat_le] at h
  rcases h with (⟨-, h⟩ | ⟨-, h⟩ | rfl) | ⟨-, h⟩
  · exact Nat.lt_of_le_of_lt h (by decide)
  · exact Nat.lt_of_le_of_lt h (by decide)
  · decide
  · exact Nat.lt_of_le_of_lt h (by decide)

theorem Written.plain {after literal raw : Bytes} {k : Kind} (h : Written after k literal raw) (hk : k ≠ .illegal) :
    (∃ b rest, raw = b :: rest ∧ b.toNat < 128) ∧ EndsPlain raw := by
  have hall (hne : raw ≠ []) (hraw : ∀ b ∈ raw, b.toNat < 128) :
      (∃ b rest, raw = b :: rest ∧ b.toNat < 128) ∧ EndsPlain raw := by
    obtain ⟨b, rest, rfl⟩ := List.exists_cons_of_ne_nil hne
    exact ⟨⟨b, rest, rfl, hraw b List.mem_cons_self⟩, endsPlain_of_forall hraw⟩
  have hdigits {ds : Bytes} (hds : ∀ d ∈ ds, Digit d) : ∀ d ∈ ds, d.toNat < 128 :=
    fun d hd => WordByte.lt (.inr (hds d hd))
  cases h with
  | word hb hw _ _ =>
    exact hall (by simp) (List.forall_mem_cons.mpr ⟨WordByte.lt (.inl hb), fun x hx => (hw x hx).lt⟩)
  | int hne hds _ _ => exact hall hne (hdigits hds)
  | float hne hds hne' hes _ =>
    refine hall (by simp) (List.forall_mem_append.mpr ⟨hdigits hds,
      List.forall_mem_cons.mpr ⟨by decide, hdigits hes⟩⟩)
  | sign hsign _ _ =>
    have hsigns : ∀ p ∈ signs, p.1 ≠ [] ∧ ∀ b ∈ p.1, b.toNat < 128 := by decide +kernel
    obtain ⟨hne, hplain⟩ := hsigns _ hsign
    exact hall hne hplain
  | @string w s hw => exact ⟨⟨34, w ++ [34], rfl, by decide⟩, endsPlain_concat (34 :: w) (by decide)⟩
  | character | stray | unterminated => exact absurd rfl hk

end Lexeme

/-- A token beyond ASCII is directly behind something beyond ASCII. -/
def Token.Crowded (text : Bytes) (t : Token) : Prop :=
  (∀ b ∈ (t.onward text).head?, 128 ≤ b.toNat) ∧ ¬ EndsPlain (text.take t.pos.offset.toNat)

namespace Cursor

variable {text front : Bytes} {n : Nat} {c : Cursor}

/-- The next token is crowded only if something beyond ASCII is in front of the cursor, and it leaves such a thing
in front of the cursor only if it is illegal. -/
theorem Stands.crowded (h : c.Stands text n) (hfront : text = front ++ c.rest) (hk : c.nextToken.1.kind ≠ .eof) :
    (c.nextToken.1.Crowded text → ¬ EndsPlain front) ∧ ∃ front', text = front' ++ c.nextToken.2.rest ∧
      (¬ EndsPlain front' → c.nextToken.1.kind = .illegal) := by
  have hgap := h.skipGap
  have hrest : c.skipGap.rest = (Lexeme.gapFrom 0 c.rest).2 := by
    obtain ⟨k, -, heq, -⟩ := Lexeme.gapFrom_eq 0 c.rest
    rw [Cursor.skipGap, rest_advance, Lexeme.gap, heq, Nat.zero_add]
  have hstop : Lexeme.gapStep c.skipGap.rest = 0 := by
    rw [Cursor.skipGap, rest_advance]
    exact (Lexeme.gap_le c.rest).2
  unfold Cursor.nextToken at hk ⊢
  revert hk hgap hstop hrest
  generalize c.skipGap = d
  intro hk hgap hrest hstop
  cases hgap with
  | ended => exact absurd rfl hk
  | inside before b rest htext =>
    dsimp only at hrest hstop ⊢
    constructor
    · rintro ⟨hhead, hend⟩ hplain
      rw [Token.onward_behind htext] at hhead
      obtain ⟨skipped, hskipped, hsk⟩ := Lexeme.endsPlain_gapFrom 0 hrest.symm (hhead b rfl)
      have hbefore : front ++ skipped = before := by
        rw [hskipped, ← List.append_assoc, htext] at hfront
        exact (List.append_cancel_right hfront).symm
      have htake : text.take (Position.behind before).offset.toNat = front ++ skipped := by
        rw [htext, hbefore]
        simp [Position.behind]
      rw [htake] at hend
      exact hend (endsPlain_append (fun _ => hplain) hsk)
    · obtain ⟨raw, after, hraw, hwritten, hafter⟩ := Lexeme.read_written hstop
      refine ⟨before ++ raw, ?_, fun hend => ?_⟩
      · rw [rest_advance, hafter, htext, hraw, List.append_assoc]
      · by_contra hne
        obtain ⟨⟨x, more, hx, -⟩, hplain⟩ := hwritten.plain hne
        exact hend (endsPlain_append (fun heq => by cases hx.symm.trans heq) hplain)

theorem tokensOnto_crowded (acc : List Token) (c : Cursor) : ∀ n front, c.Stands text n → text = front ++ c.rest →
    ∃ tokens eof, (c.tokensOnto acc).1 = acc.reverse ++ (tokens ++ [eof]) ∧
      tokens.IsChain (fun u t => t.Crowded text → u.kind = .illegal) ∧
      ∀ t ∈ tokens.head?, t.Crowded text → ¬ EndsPlain front := by
  fun_induction tokensOnto acc c with
  | case1 acc c next hk => exact fun n front h hfront => ⟨[], next.1, by simp, .nil, by simp⟩
  | case2 acc c next hk ih =>
    intro n front h hfront
    obtain ⟨hcrowded, front', hfront', hillegal⟩ := h.crowded hfront hk
    have hnext : ∃ m, next.2.Stands text m := by
      obtain ⟨-, -, hcut, hwhole⟩ := h.nextToken hk
      by_cases hc : Lexeme.CutOff (next.1.onward text)
      · exact ⟨1, hcut hc⟩
      · exact ⟨0, hwhole hc⟩
    obtain ⟨m, hnext⟩ := hnext
    obtain ⟨tokens, eof, heq, hchain, hhead⟩ := ih m front' hnext hfront'
    refine ⟨next.1 :: tokens, eof, by simp [heq], List.isChain_cons.mpr ⟨fun t ht hc => ?_, hchain⟩, ?_⟩
    · exact hillegal (hhead t ht hc)
    · intro t ht
      cases Option.mem_some_iff.mp ht
      exact hcrowded

end Cursor

theorem Token.ReadIn.head_lt {text : Bytes} {t : Token} (h : t.ReadIn text) (hk : t.kind ≠ .illegal) :
    ∀ b ∈ (t.onward text).head?, b.toNat < 128 := by
  obtain ⟨front, b, rest, htext, hgap, rfl⟩ := h
  obtain ⟨raw, after, hraw, hwritten, -⟩ := Lexeme.read_written hgap
  obtain ⟨⟨x, more, rfl, hx⟩, -⟩ := hwritten.plain hk
  obtain ⟨rfl, -⟩ := List.cons.inj hraw
  rw [Token.onward_behind htext]
  intro y hy
  cases Option.mem_some_iff.mp hy
  exact hx

theorem Token.ReadIn.not_crowded {text : Bytes} {t : Token} (h : t.ReadIn text) (hk : t.kind ≠ .illegal) :
    ¬ t.Crowded text := by
  have hlt := h.head_lt hk
  obtain ⟨front, b, rest, htext, -, rfl⟩ := h
  rintro ⟨hge, -⟩
  rw [Token.onward_behind htext] at hlt hge
  have := hlt b rfl
  have := hge b rfl
  omega

/-- A crowded token comes directly behind an illegal one. -/
theorem tokenize_crowded (source : Bytes) : let text := Text.Canonical.compose source
    ∃ tokens eof, tokenize source = tokens ++ [eof] ∧ eof.kind = .eof ∧ (∀ t ∈ tokens, t.ReadIn text) ∧
      ∀ front t rest, tokens = front ++ t :: rest → t.Crowded text → ∃ u ∈ front.getLast?, u.kind = .illegal := by
  intro text
  obtain ⟨tokens, eof, heq, hall, heof, -⟩ := tokenize_readIn source
  obtain ⟨tokens', eof', heq', hchain, hhead⟩ :=
    Cursor.tokensOnto_crowded [] _ 0 [] (Cursor.stands_start text) rfl
  have htokens : tokenize source = tokens' ++ [eof'] := heq'
  obtain ⟨rfl, -⟩ := List.append_inj' (heq.symm.trans htokens) rfl
  refine ⟨tokens, eof, heq, heof, hall, ?_⟩
  rintro front t rest rfl hc
  rcases List.eq_nil_or_concat' front with rfl | ⟨front, u, rfl⟩
  · exact absurd (by simp [EndsPlain]) (hhead t (by simp) hc)
  · refine ⟨u, by simp, ?_⟩
    exact (List.isChain_append.mp hchain).2.2 u (by simp) t (by simp) hc

/-- Without syntax errors no token is crowded, and with some none that an error is at. -/
theorem not_crowded (source : Bytes) {t : Token} (ht : t ∈ tokenize source) (hk : t.kind ≠ .eof)
    (h : (parse (tokenize source)).errors = [] ∨ ∃ e ∈ (parse (tokenize source)).errors, e.pos = t.pos) :
    ¬ t.Crowded (Text.Canonical.compose source) := by
  obtain ⟨tokens, eof, heq, heof, hall, hcrowded⟩ := tokenize_crowded source
  obtain ⟨hfooted, hlegal⟩ := parse_footed (tokenize source)
  have hof : ofTokens (tokenize source) = ofTokens (tokens ++ [eof]) := by rw [heq]
  rw [hof, ofTokens_cons (fun t ht => (hall t ht).kind_ne) heof] at hfooted hlegal
  dsimp only at hfooted hlegal
  have hmem : t ∈ tokens := by
    rw [heq, List.mem_append, List.mem_singleton] at ht
    exact ht.resolve_right fun h => hk (h ▸ heof)
  rcases h with hnil | ⟨e, he, hpos⟩
  · exact (hall t hmem).not_crowded (hlegal hnil t hmem)
  · obtain ⟨u, f, rfl, hu⟩ := hfooted e he
    -- a token has one place only
    have hsame (hu : u ∈ tokenize source) : t = u := (tokenize_increasing source).eq_of_pos ht hu hpos.symm
    rcases hu with rfl | ⟨hu, hlegal⟩ | ⟨front, rest, hsplit, hfoot⟩
    · exact absurd (hsame (by simp [heq]) ▸ heof) hk
    · obtain rfl := hsame (by simp [heq, hu])
      exact (hall t hmem).not_crowded hlegal
    · obtain rfl := hsame (by simp [heq, hsplit])
      intro hc
      obtain ⟨u, hu, hillegal⟩ := hcrowded front t rest hsplit hc
      exact hfoot u hu hillegal

end RegCode
