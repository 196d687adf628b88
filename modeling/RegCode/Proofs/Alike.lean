import RegCode.Proofs.Viable

/-!
# Parsing does not look at places

Two streams whose tokens differ in their places only are read in the same way: the same phrases are read or given up
in the same order, for the same reasons. So each step of a parser takes streams that are alike to streams that are
alike, and makes trees of them that are equal without their places.
-/

namespace RegCode

/-- The token, wherever it is. -/
def Token.bare (t : Token) : Token := { t with pos := {} }

def SyntaxError.bare (e : SyntaxError) : SyntaxError := { e with pos := {} }

section
variable {t t' : Token}

theorem Token.bare_eq_iff : t.bare = t'.bare ↔ t.kind = t'.kind ∧ t.literal = t'.literal := by
  simp [Token.bare]

theorem Token.kind_of_bare (h : t.bare = t'.bare) : t.kind = t'.kind := (bare_eq_iff.mp h).1

theorem Token.literal_of_bare (h : t.bare = t'.bare) : t.literal = t'.literal := (bare_eq_iff.mp h).2

theorem SyntaxError.bare_atToken (h : t.bare = t'.bare) (f : SyntaxFault) :
    (atToken t f).bare = (atToken t' f).bare := by
  simp [bare, atToken, Token.kind_of_bare h, Token.literal_of_bare h]

end

namespace TokenStream

/-- The two streams differ in places only. -/
structure Alike (s s' : TokenStream) : Prop where
  prev : s.prev.bare = s'.prev.bare
  rest : s.rest.map Token.bare = s'.rest.map Token.bare
  ending : s.ending.bare = s'.ending.bare
  errors : s.errors.map SyntaxError.bare = s'.errors.map SyntaxError.bare

section
variable {s s' : TokenStream}

theorem Alike.cases (h : s.Alike s') : (s.rest = [] ∧ s'.rest = []) ∨
    ∃ t rest t' rest', s.rest = t :: rest ∧ s'.rest = t' :: rest' ∧ t.bare = t'.bare ∧
    s.advance.Alike s'.advance := by
  have hrest := h.rest
  cases hr : s.rest with
  | nil =>
    rw [hr, List.map_nil, eq_comm, List.map_eq_nil_iff] at hrest
    exact .inl ⟨rfl, hrest⟩
  | cons t rest =>
    rw [hr, List.map_cons, eq_comm, List.map_eq_cons_iff] at hrest
    obtain ⟨t', rest', hr', ht, hrest⟩ := hrest
    refine .inr ⟨t, rest, t', rest', rfl, hr', ht.symm, ?_⟩
    unfold advance
    rw [hr, hr']
    exact ⟨ht.symm, hrest.symm, h.ending, h.errors⟩

theorem Alike.current (h : s.Alike s') : s.current.bare = s'.current.bare := by
  unfold TokenStream.current
  rcases h.cases with ⟨hr, hr'⟩ | ⟨t, rest, t', rest', hr, hr', ht, -⟩
  · rw [hr, hr']
    exact h.ending
  · rw [hr, hr']
    exact ht

theorem Alike.advance (h : s.Alike s') : s.advance.Alike s'.advance := by
  rcases h.cases with ⟨hr, hr'⟩ | ⟨t, rest, t', rest', -, -, -, ha⟩
  · unfold TokenStream.advance
    rw [hr, hr']
    exact h
  · exact ha

theorem Alike.report (h : s.Alike s') {t t' : Token} (ht : t.bare = t'.bare) (f : SyntaxFault) :
    (s.report t f).Alike (s'.report t' f) := by
  refine ⟨h.prev, h.rest, h.ending, ?_⟩
  simp only [TokenStream.report, Array.map_push, h.errors, SyntaxError.bare_atToken ht]

theorem resume_nil (h : s.rest = []) : s.resume = s := by
  rw [resume]
  split
  · rfl
  · rename_i hr
    rw [h] at hr
    cases hr

theorem resume_cons {t : Token} {rest : List Token} (h : s.rest = t :: rest) :
    s.resume = if s.prev.kind = .semicolon ∨ t.kind.startsStatement then s else s.advance.resume := by
  rw [resume]
  split
  · rename_i hr
    rw [h] at hr
    cases hr
  · rename_i hr
    rw [h] at hr
    cases hr
    rfl

theorem Alike.resume (h : s.Alike s') : s.resume.Alike s'.resume := by
  induction hl : s.left using Nat.strongRecOn generalizing s s' with
  | ind n ih =>
    subst hl
    rcases h.cases with ⟨hr, hr'⟩ | ⟨t, rest, t', rest', hr, hr', ht, ha⟩
    · rw [resume_nil hr, resume_nil hr']
      exact h
    · rw [resume_cons hr, resume_cons hr', ← Token.kind_of_bare ht, ← Token.kind_of_bare h.prev]
      split
      · exact h
      · exact ih _ (left_advance_lt hr) ha rfl

theorem Alike.recover (h : s.Alike s') (moved : Bool) : (s.recover moved).Alike (s'.recover moved) := by
  unfold TokenStream.recover
  split
  · exact h.resume
  · exact h.advance.resume

theorem Alike.skip? (h : s.Alike s') (k : Kind) : (s.skip? k = none ∧ s'.skip? k = none) ∨
    ∃ next lt next' lt', s.skip? k = some ⟨next, lt⟩ ∧ s'.skip? k = some ⟨next', lt'⟩ ∧ next.Alike next' := by
  rcases h.cases with ⟨hr, hr'⟩ | ⟨t, rest, t', rest', hr, hr', ht, ha⟩
  · refine .inl ⟨skip?_eq_none ?_, skip?_eq_none ?_⟩ <;> simp [hr, hr']
  · by_cases hk : t.kind = k
    · exact .inr ⟨_, _, _, _, skip?_eq_some hr hk, skip?_eq_some hr' (Token.kind_of_bare ht ▸ hk), ha⟩
    · exact .inl ⟨skip?_eq_none_of_kind hr hk, skip?_eq_none_of_kind hr' (Token.kind_of_bare ht ▸ hk)⟩

end

end TokenStream

open TokenStream

namespace Reading

/-- The two readings have the same outcome: values that `b` does not tell apart, or one fault. -/
inductive Alike {α γ : Type} (b : α → γ) {start start' : TokenStream} :
    Reading α start → Reading α start' → Prop where
  | done {a a' : α} {s s' : TokenStream} {lt : s.left < start.left} {lt' : s'.left < start'.left} : b a = b a' →
      s.Alike s' → Alike b (.done a s lt) (.done a' s' lt')
  | fail {f : SyntaxFault} {s s' : TokenStream} {moved : Bool} {le : s.left + moved.toNat ≤ start.left}
      {le' : s'.left + moved.toNat ≤ start'.left} : s.Alike s' → Alike b (.fail f s moved le) (.fail f s' moved le')

section
variable {α β γ δ : Type} {b : α → γ} {c : β → δ} {start start' s s' : TokenStream}

theorem Alike.after {r : Reading α s} {r' : Reading α s'} (h : r.Alike b r') (lt : s.left < start.left)
    (lt' : s'.left < start'.left) : (r.after lt).Alike b (r'.after lt') := by
  cases h with
  | done ha hs => exact .done ha hs
  | fail hs => exact .fail hs

theorem Alike.follow {r : Reading α start} {r' : Reading α start'}
    {f : α → (s : TokenStream) → s.left < start.left → Reading β start}
    {f' : α → (s : TokenStream) → s.left < start'.left → Reading β start'} (h : r.Alike b r')
    (hf : ∀ a a' s s' lt lt', b a = b a' → s.Alike s' → (f a s lt).Alike c (f' a' s' lt')) :
    (r.follow f).Alike c (r'.follow f') := by
  cases h with
  | done ha hs => exact hf _ _ _ _ _ _ ha hs
  | fail hs => exact .fail hs

theorem Alike.bind {r : Reading α start} {r' : Reading α start'}
    {f : α → (s : TokenStream) → s.left < start.left → Reading β s}
    {f' : α → (s : TokenStream) → s.left < start'.left → Reading β s} (h : r.Alike b r')
    (hf : ∀ a a' s s' lt lt', b a = b a' → s.Alike s' → (f a s lt).Alike c (f' a' s' lt')) :
    (r.bind f).Alike c (r'.bind f') :=
  h.follow fun a a' s s' lt lt' ha hs => (hf a a' s s' lt lt' ha hs).after lt lt'

theorem Alike.chain {r : Reading α s} {r' : Reading α s'} {lt : s.left < start.left} {lt' : s'.left < start'.left}
    {f : α → (s₁ : TokenStream) → s₁.left < s.left → Reading β start}
    {f' : α → (s₁ : TokenStream) → s₁.left < s'.left → Reading β start'} (h : r.Alike b r')
    (hf : ∀ a a' s₁ s₁' lt₁ lt₁', b a = b a' → s₁.Alike s₁' → (f a s₁ lt₁).Alike c (f' a' s₁' lt₁')) :
    (r.chain lt f).Alike c (r'.chain lt' f') := by
  cases h with
  | done ha hs => exact hf _ _ _ _ _ _ ha hs
  | fail hs => exact .fail hs

theorem Alike.map {r : Reading α start} {r' : Reading α start'} {f f' : α → Token → β} (h : r.Alike b r')
    (hf : ∀ a a' t t', b a = b a' → t.bare = t'.bare → c (f a t) = c (f' a' t')) :
    (r.map f).Alike c (r'.map f') := by
  cases h with
  | done ha hs => exact .done (hf _ _ _ _ ha hs.prev) hs
  | fail hs => exact .fail hs

end

end Reading

namespace TokenStream

variable {s s' start start' : TokenStream} {t t' : Token}

/-! ## Expressions -/

theorem faultAt_of_bare (h : t.bare = t'.bare) (f : SyntaxFault) : faultAt t f = faultAt t' f := by
  unfold faultAt
  rw [Token.kind_of_bare h, Token.literal_of_bare h]

theorem reject_alike {α γ : Type} {b : α → γ} (h : s.Alike s') (f : SyntaxFault) :
    (s.reject f : Reading α s).Alike b (s'.reject f : Reading α s') := by
  unfold reject
  dsimp only
  rw [← faultAt_of_bare h.current f]
  exact .fail (h.report h.current _)

theorem expect_nil (h : s.rest = []) (k : Kind) (f : SyntaxFault) : s.expect k f = s.reject f := by
  unfold expect
  split
  · rfl
  · rename_i hr
    rw [h] at hr
    cases hr

theorem expect_alike (h : s.Alike s') (k : Kind) (f : SyntaxFault) :
    (s.expect k f).Alike Token.bare (s'.expect k f) := by
  rcases h.cases with ⟨hr, hr'⟩ | ⟨t, rest, t', rest', hr, hr', ht, ha⟩
  · rw [expect_nil hr, expect_nil hr']
    exact reject_alike h f
  · rw [expect_eq hr, expect_eq hr', ← Token.kind_of_bare ht]
    by_cases hk : t.kind = k
    · rw [if_pos hk, if_pos hk]
      exact .done ht ha
    · rw [if_neg hk, if_neg hk]
      exact reject_alike h f

theorem number_alike (h : s.Alike s') (ht : t.bare = t'.bare) (v : Option Literal) (f : SyntaxFault)
    (lt : s.left < start.left) (lt' : s'.left < start'.left) :
    (number t v f s lt).Alike Expr.bare (number t' v f s' lt') := by
  cases v with
  | some v => exact .done rfl h
  | none => exact .fail (h.report ht f)

def ExprAlikeBelow (n : Nat) : Prop :=
  ∀ (least : Nat) (s s' : TokenStream), s.left < n → s.Alike s' → (expr least s).Alike Expr.bare (expr least s')

theorem operand_nil (h : s.rest = []) : operand s = s.reject .noExpression := by
  rw [operand]
  split
  · rfl
  · rename_i hr
    rw [h] at hr
    cases hr

theorem operand_alike (ih : ExprAlikeBelow s.left) (h : s.Alike s') :
    (operand s).Alike Expr.bare (operand s') := by
  rcases h.cases with ⟨hr, hr'⟩ | ⟨t, rest, t', rest', hr, hr', ht, ha⟩
  · rw [operand_nil hr, operand_nil hr']
    exact reject_alike h _
  · have hlt := left_advance_lt hr
    have hlt' := left_advance_lt hr'
    have hsign :
        (Reading.after ((expr Kind.signStrength s.advance).map fun e _ => .signNode t e) hlt).Alike Expr.bare
        (Reading.after ((expr Kind.signStrength s'.advance).map fun e _ => .signNode t' e) hlt') := by
      refine .after ((ih _ _ _ hlt ha).map fun e e' _ _ he _ => ?_) _ _
      simp [Expr.signNode, Expr.bare, he, Token.kind_of_bare ht]
    rw [operand_eq hr, operand_eq hr', ← Token.kind_of_bare ht, ← Token.literal_of_bare ht]
    split
    · exact number_alike ha ht _ _ _ _
    · exact number_alike ha ht _ _ _ _
    · exact .done rfl ha
    · exact .done rfl ha
    · refine .after ((ih _ _ _ hlt ha).bind fun e e' s₁ s₁' _ _ he hs => ?_) _ _
      exact (expect_alike hs _ _).map fun _ _ _ _ _ _ => by simp [Expr.bare, he]
    · exact hsign
    · exact hsign
    · exact reject_alike h _

theorem target?_of_bare {e e' : Expr} (h : e.bare = e'.bare) : e.target? = e'.target? := by
  have hbare (e : Expr) : e.bare.target? = e.target? := by cases e <;> rfl
  rw [← hbare e, h, hbare]

theorem joined_alike {left left' right right' : Expr} (hl : left.bare = left'.bare) (hr : right.bare = right'.bare)
    (ht : t.bare = t'.bare) (h : s.Alike s') :
    (joined left t right s).1.bare = (joined left' t' right' s').1.bare ∧
      (joined left t right s).2.Alike (joined left' t' right' s').2 := by
  unfold joined
  rw [← Token.kind_of_bare ht]
  split
  · unfold Expr.assignNode?
    rw [← target?_of_bare hl]
    cases left.target? with
    | some n => exact ⟨by simp [Expr.bare, hr], h⟩
    | none => exact ⟨hl, h.report ht _⟩
  · exact ⟨by simp [Expr.operatorNode, Expr.bare, hl, hr, Token.kind_of_bare ht], h⟩

theorem ahead_of_alike (h : s.Alike s') : ahead s.rest = ahead s'.rest := by
  rcases h.cases with ⟨hr, hr'⟩ | ⟨t, rest, t', rest', hr, hr', ht, -⟩
  · rw [hr, hr']
  · rw [hr, hr', ahead, ahead, Token.kind_of_bare ht]

theorem operators_alike {n : Nat} (ih : ExprAlikeBelow n) {left left' : Expr} (least : Nat)
    (hl : left.bare = left'.bare) (h : s.Alike s') (hs : s.left ≤ n) (lt : s.left < start.left)
    (lt' : s'.left < start'.left) :
    (operators start least left s lt).Alike Expr.bare (operators start' least left' s' lt') := by
  induction hm : s.left using Nat.strongRecOn generalizing left left' s s' with
  | ind m ihm =>
    subst hm
    by_cases hstop : ahead s.rest ≤ least
    · rw [operators_stop lt hstop, operators_stop lt' (ahead_of_alike h ▸ hstop)]
      exact .done hl h
    · rcases h.cases with ⟨hr, -⟩ | ⟨op, rest, op', rest', hr, hr', hop, ha⟩
      · exact absurd (by rw [hr]; exact Nat.zero_le _) hstop
      · have hlt := left_advance_lt hr
        have hstrong : least < op.kind.strength := by rwa [hr, ahead, Nat.not_le] at hstop
        have hk := Token.kind_of_bare hop
        rw [operators_eq lt hr hstrong, operators_eq lt' hr' (hk ▸ hstrong), ← hk]
        refine (ih _ _ _ (by omega) ha).chain fun right right' next next' lt₁ lt₁' hright hnext => ?_
        obtain ⟨hj, hja⟩ := joined_alike hl hright hop hnext
        have hleft := left_joined left op right next
        exact ihm _ (by omega) hj hja (by omega) _ _ rfl

theorem expr_alike (least : Nat) (h : s.Alike s') : (expr least s).Alike Expr.bare (expr least s') := by
  have hall : ∀ n, ExprAlikeBelow n := by
    intro n
    induction n with
    | zero => exact fun _ s _ hs => absurd hs (Nat.not_lt_zero _)
    | succ n ih =>
      intro least s s' hs h
      have ih' : ExprAlikeBelow s.left := fun least s₁ s₁' hlt => ih least s₁ s₁' (by omega)
      rw [expr_eq, expr_eq]
      refine (operand_alike ih' h).follow fun e e' s₁ s₁' lt lt' he hs₁ => ?_
      exact operators_alike ih least he hs₁ (by omega) lt lt'
  exact hall (s.left + 1) least s s' (Nat.lt_succ_self _) h

/-! ## Statements -/

theorem finish_alike (h : s.Alike s') (first first' : Token) (f : SyntaxFault) {node node' : Place → Stmt}
    (hn : ∀ p p', (node p).bare = (node' p').bare) :
    (finish first f node s).Alike Stmt.bare (finish first' f node' s') :=
  (expect_alike h _ _).map fun _ _ _ _ _ _ => hn _ _

theorem value_alike (h : s.Alike s') (first first' : Token) (f : SyntaxFault) {node node' : Expr → Place → Stmt}
    (hn : ∀ e e' p p', e.bare = e'.bare → (node e p).bare = (node' e' p').bare) :
    ((expr Kind.weakest s).bind fun e s _ => finish first f (node e) s).Alike Stmt.bare
      ((expr Kind.weakest s').bind fun e s _ => finish first' f (node' e) s) :=
  (expr_alike _ h).bind fun e e' _ _ _ _ he hs => finish_alike hs first first' f fun p p' => hn e e' p p' he

theorem varDecl_alike (h : s.Alike s') (first first' : Token) :
    (varDecl first s).Alike Stmt.bare (varDecl first' s') := by
  refine (expect_alike h _ _).bind fun name name' s₁ s₁' _ _ hname hs => ?_
  have hlit := Token.literal_of_bare hname
  rcases hs.skip? .assign with ⟨h₁, h₁'⟩ | ⟨next, lt, next', lt', h₁, h₁', hnext⟩
  · simp only [h₁, h₁']
    exact finish_alike hs _ _ _ fun _ _ => by simp [Stmt.bare, hlit]
  · simp only [h₁, h₁']
    refine .after (value_alike hnext _ _ _ fun e e' _ _ he => ?_) lt lt'
    simp [Stmt.bare, hlit, he]

theorem printStmt_alike (h : s.Alike s') (first first' : Token) :
    (printStmt first s).Alike Stmt.bare (printStmt first' s') :=
  value_alike h first first' _ fun _ _ _ _ he => by simp [Stmt.bare, he]

theorem returnStmt_alike (h : s.Alike s') (first first' : Token) :
    (returnStmt first s).Alike Stmt.bare (returnStmt first' s') := by
  unfold returnStmt
  rw [← Token.kind_of_bare h.current]
  split
  · exact finish_alike h _ _ _ fun _ _ => rfl
  · exact value_alike h first first' _ fun _ _ _ _ he => by simp [Stmt.bare, he]

theorem exprStmt_alike (h : s.Alike s') : (exprStmt s).Alike Stmt.bare (exprStmt s') :=
  value_alike h _ _ _ fun _ _ _ _ he => by simp [Stmt.bare, he]

theorem condition_alike (h : s.Alike s') (opening closing : SyntaxFault) :
    (condition opening closing s).Alike Expr.bare (condition opening closing s') :=
  (expect_alike h _ _).bind fun _ _ _ _ _ _ _ hs => (expr_alike _ hs).bind fun _ _ _ _ _ _ he hs₁ =>
    (expect_alike hs₁ _ _).map fun _ _ _ _ _ _ => he

/-! ## Parameters -/

section
variable {acc acc' : List Param}

theorem counted_alike (h : s.Alike s') (hacc : acc.map Param.bare = acc'.map Param.bare) :
    (counted acc s).Alike (counted acc' s') := by
  have hlen : acc.length = acc'.length := by simpa using congrArg List.length hacc
  unfold counted
  simp only [List.isEmpty_iff, List.drop_eq_nil_iff, hlen]
  split
  · exact h
  · exact h.report h.current _

theorem parameters_alike (h : s.Alike s') (hacc : acc.map Param.bare = acc'.map Param.bare)
    (lt : s.left < start.left) (lt' : s'.left < start'.left) :
    (parameters start acc s lt).Alike (List.map Param.bare) (parameters start' acc' s' lt') := by
  induction hn : s.left using Nat.strongRecOn generalizing acc acc' s s' with
  | ind n ih =>
    subst hn
    have hc := left_counted acc s
    rw [parameters_eq rfl lt (hc ▸ lt), parameters_eq rfl lt' (left_counted acc' s' ▸ lt')]
    refine (expect_alike (counted_alike h hacc) _ _).chain fun t t' s₁ s₁' lt₁ lt₁' ht hs => ?_
    have hmore : (⟨t.literal, t.pos⟩ :: acc : List Param).map Param.bare =
        (⟨t'.literal, t'.pos⟩ :: acc' : List Param).map Param.bare := by
      simp [Param.bare, hacc, Token.literal_of_bare ht]
    unfold moreParameters
    rcases hs.skip? .comma with ⟨h₁, h₁'⟩ | ⟨next, lt₂, next', lt₂', h₁, h₁', hnext⟩
    · simp only [h₁, h₁']
      refine .after ((expect_alike hs _ _).map fun _ _ _ _ _ _ => ?_) _ _
      simp only [List.map_reverse, hmore]
    · simp only [h₁, h₁']
      exact ih _ (by omega) hnext hmore _ _ rfl

end

theorem parameterList_alike (h : s.Alike s') :
    (parameterList s).Alike (List.map Param.bare) (parameterList s') := by
  refine (expect_alike h _ _).follow fun _ _ s₁ s₁' lt lt' _ hs => ?_
  rcases hs.skip? .rparen with ⟨h₁, h₁'⟩ | ⟨next, lt₁, next', lt₁', h₁, h₁', hnext⟩
  · simp only [h₁, h₁']
    exact parameters_alike hs rfl lt lt'
  · simp only [h₁, h₁']
    exact .done rfl hnext

/-! ## Blocks -/

def StatementAlikeBelow (n : Nat) : Prop :=
  ∀ s s' : TokenStream, s.left < n → s.Alike s' → (statement s).Alike Stmt.bare (statement s')

def BlockAlikeBelow (n : Nat) : Prop :=
  ∀ (start start' s s' : TokenStream) (acc acc' : List Stmt)
    (lt : s.left < start.left) (lt' : s'.left < start'.left),
    s.left < n → s.Alike s' → acc.map Stmt.bare = acc'.map Stmt.bare →
      (block start acc s lt).Alike (List.map Stmt.bare) (block start' acc' s' lt')

theorem ifStmt_alike {n : Nat} (ih : StatementAlikeBelow n) (hs : s.left ≤ n) (h : s.Alike s')
    (first first' : Token) :
    (ifStmt first s).Alike Stmt.bare (ifStmt first' s') := by
  rw [ifStmt_eq, ifStmt_eq]
  refine (condition_alike h _ _).bind fun cond cond' s₁ s₁' lt₁ _ hcond hs₁ => ?_
  refine (ih s₁ s₁' (by omega) hs₁).follow fun yes yes' s₂ s₂' lt₂ _ hyes hs₂ => ?_
  unfold elseBranch
  rcases hs₂.skip? .kwElse with ⟨h₁, h₁'⟩ | ⟨next, lt₃, next', lt₃', h₁, h₁', hnext⟩
  · simp only [h₁, h₁']
    exact .done (by simp [Stmt.bare, hcond, hyes]) hs₂
  · simp only [h₁, h₁']
    refine .after ((ih next next' (by omega) hnext).map fun no no' _ _ hno _ => ?_) _ _
    simp [Stmt.bare, hcond, hyes, hno]

theorem whileStmt_alike {n : Nat} (ih : StatementAlikeBelow n) (hs : s.left ≤ n) (h : s.Alike s')
    (first first' : Token) : (whileStmt first s).Alike Stmt.bare (whileStmt first' s') := by
  rw [whileStmt, whileStmt]
  refine (condition_alike h _ _).bind fun cond cond' s₁ s₁' lt₁ _ hcond hs₁ => ?_
  exact (ih s₁ s₁' (by omega) hs₁).map fun body body' _ _ hbody _ => by simp [Stmt.bare, hcond, hbody]

theorem funcDecl_alike {n : Nat} (ih : BlockAlikeBelow n) (hs : s.left ≤ n) (h : s.Alike s')
    (first first' : Token) :
    (funcDecl first s).Alike Stmt.bare (funcDecl first' s') := by
  rw [funcDecl, funcDecl]
  refine (expect_alike h _ _).bind fun name name' s₁ s₁' lt₁ _ hname hs₁ => ?_
  refine (parameterList_alike hs₁).bind fun ps ps' s₂ s₂' lt₂ _ hps hs₂ => ?_
  refine (expect_alike hs₂ _ _).follow fun _ _ s₃ s₃' lt₃ lt₃' _ hs₃ => ?_
  refine (ih s₂ s₂' s₃ s₃' [] [] lt₃ lt₃' (by omega) hs₃ rfl).map fun body body' _ _ hbody _ => ?_
  simp [Stmt.bare, bareAll_eq_map, hbody, hps, Token.literal_of_bare hname]

theorem statement_nil (h : s.rest = []) : statement s = exprStmt s := by
  rw [statement]
  split
  · rfl
  · rename_i hr
    rw [h] at hr
    cases hr

theorem statement_alike (ihS : StatementAlikeBelow s.left) (ihB : BlockAlikeBelow s.left) (h : s.Alike s') :
    (statement s).Alike Stmt.bare (statement s') := by
  rcases h.cases with ⟨hr, hr'⟩ | ⟨t, rest, t', rest', hr, hr', ht, ha⟩
  · rw [statement_nil hr, statement_nil hr']
    exact exprStmt_alike h
  · have hlt := left_advance_lt hr
    rw [statement_eq hr, statement_eq hr', ← Token.kind_of_bare ht]
    split
    · exact .after (ifStmt_alike ihS (by omega) ha t t') _ _
    · exact .after (whileStmt_alike ihS (by omega) ha t t') _ _
    · exact .after (returnStmt_alike ha t t') _ _
    · exact .after (printStmt_alike ha t t') _ _
    · refine (ihB s s' _ _ [] [] _ _ hlt ha rfl).map fun body body' _ _ hbody _ => ?_
      simp [Stmt.bare, bareAll_eq_map, hbody]
    · exact exprStmt_alike h

theorem attempt_alike (hS : StatementAlikeBelow (s.left + 1)) (ihB : BlockAlikeBelow s.left) (h : s.Alike s')
    (ht : t.bare = t'.bare) (lt : s.advance.left < s.left) (lt' : s'.advance.left < s'.left) :
    (attempt s t lt).Alike Stmt.bare (attempt s' t' lt') := by
  unfold attempt
  rw [← Token.kind_of_bare ht]
  split
  · exact .after (funcDecl_alike ihB (by omega) h.advance t t') _ _
  · exact .after (varDecl_alike h.advance t t') _ _
  · exact hS s s' (Nat.lt_succ_self _) h

/-- A declaration that is given up is given up in both streams, and both go on at the same boundary. -/
theorem settled_alike {r : Reading Stmt s} {r' : Reading Stmt s'} (h : r.Alike Stmt.bare r')
    (first first' : Token) :
    (settled first r).1.bare = (settled first' r').1.bare ∧ (settled first r).2.Alike (settled first' r').2 := by
  cases h with
  | done ha hs => exact ⟨ha, hs⟩
  | fail hs => exact ⟨by simp [settled, Stmt.bare], hs.recover _⟩

theorem declaration_alike (hS : StatementAlikeBelow (s.left + 1)) (ihB : BlockAlikeBelow s.left) (h : s.Alike s')
    (ht : t.bare = t'.bare) {rest rest' : List Token} (hr : s.rest = t :: rest) (hr' : s'.rest = t' :: rest') :
    (declaration s t rest hr).1.1.bare = (declaration s' t' rest' hr').1.1.bare ∧
      (declaration s t rest hr).1.2.Alike (declaration s' t' rest' hr').1.2 := by
  rw [declaration_eq, declaration_eq]
  exact settled_alike (attempt_alike hS ihB h ht _ _) t t'

theorem block_alike (hS : StatementAlikeBelow (s.left + 1)) (ihB : BlockAlikeBelow s.left) (h : s.Alike s')
    {acc acc' : List Stmt} (hacc : acc.map Stmt.bare = acc'.map Stmt.bare) (lt : s.left < start.left)
    (lt' : s'.left < start'.left) :
    (block start acc s lt).Alike (List.map Stmt.bare) (block start' acc' s' lt') := by
  rcases h.cases with ⟨hr, hr'⟩ | ⟨t, rest, t', rest', hr, hr', ht, ha⟩
  · rw [block_nil acc lt hr, block_nil acc' lt' hr']
    exact .after (reject_alike h _) lt lt'
  · rw [block_cons acc lt hr, block_cons acc' lt' hr', ← Token.kind_of_bare ht]
    split
    · exact .done (by simp only [List.map_reverse, hacc]) ha
    · obtain ⟨hst, hnext⟩ := declaration_alike hS ihB h ht hr hr'
      exact ihB _ _ _ _ _ _ _ _ (declaration s t rest hr).2 hnext (by simp [hst, hacc])

theorem statement_block_alike (n : Nat) : StatementAlikeBelow n ∧ BlockAlikeBelow n := by
  induction n with
  | zero =>
    refine ⟨fun s _ hs => absurd hs (Nat.not_lt_zero _), ?_⟩
    exact fun _ _ s _ _ _ _ _ hs => absurd hs (Nat.not_lt_zero _)
  | succ n ih =>
    have hS : StatementAlikeBelow (n + 1) := by
      intro s s' hs h
      refine statement_alike (fun s₁ s₁' hlt => ih.1 s₁ s₁' (by omega)) ?_ h
      exact fun start start' s₁ s₁' acc acc' lt lt' hlt => ih.2 start start' s₁ s₁' acc acc' lt lt' (by omega)
    refine ⟨hS, fun start start' s s' acc acc' lt lt' hs h hacc => ?_⟩
    refine block_alike (fun s₁ s₁' hlt => hS s₁ s₁' (by omega)) ?_ h hacc lt lt'
    exact fun start start' s₁ s₁' acc acc' lt lt' hlt => ih.2 start start' s₁ s₁' acc acc' lt lt' (by omega)

/-! ## Whole texts -/

theorem declarations_nil (acc : List Stmt) (h : s.rest = []) : declarations acc s = (acc.reverse, s) := by
  rw [declarations]
  split
  · rfl
  · rename_i hr
    rw [h] at hr
    cases hr

theorem declarations_alike (h : s.Alike s') {acc acc' : List Stmt} (hacc : acc.map Stmt.bare = acc'.map Stmt.bare) :
    (declarations acc s).1.map Stmt.bare = (declarations acc' s').1.map Stmt.bare ∧
      (declarations acc s).2.Alike (declarations acc' s').2 := by
  induction hn : s.left using Nat.strongRecOn generalizing acc acc' s s' with
  | ind n ih =>
    subst hn
    rcases h.cases with ⟨hr, hr'⟩ | ⟨t, rest, t', rest', hr, hr', ht, -⟩
    · rw [declarations_nil acc hr, declarations_nil acc' hr']
      exact ⟨by simp only [List.map_reverse, hacc], h⟩
    · rw [declarations_cons acc hr, declarations_cons acc' hr']
      obtain ⟨hS, -⟩ := statement_block_alike (s.left + 1)
      obtain ⟨-, hB⟩ := statement_block_alike s.left
      obtain ⟨hst, hnext⟩ := declaration_alike hS hB h ht hr hr'
      exact ih _ (declaration s t rest hr).2 hnext (by simp [hst, hacc]) rfl

theorem ofTokens_alike {ts us : List Token} (h : ts.map Token.bare = us.map Token.bare) :
    (ofTokens ts).Alike (ofTokens us) := by
  have hrest (l : List Token) :
      (ofTokens l).rest.map Token.bare = (l.map Token.bare).takeWhile (·.kind != .eof) := by
    rw [List.takeWhile_map]
    rfl
  have hending (l : List Token) :
      (ofTokens l).ending.bare = ((l.map Token.bare).find? (·.kind == .eof)).getD ⟨.eof, [], {}⟩ := by
    rw [List.find?_map]
    exact (Option.getD_map Token.bare _ _).symm
  have hprev (l : List Token) :
      (ofTokens l).prev.bare = ((ofTokens l).rest.map Token.bare).headD (ofTokens l).ending.bare := by
    change (((ofTokens l).rest).headD (ofTokens l).ending).bare = _
    cases (ofTokens l).rest <;> rfl
  refine ⟨?_, ?_, ?_, rfl⟩
  · rw [hprev, hprev, hrest, hrest, hending, hending, h]
  · rw [hrest, hrest, h]
  · rw [hending, hending, h]

end TokenStream

theorem parse_alike {ts us : List Token} (h : ts.map Token.bare = us.map Token.bare) :
    (parse ts).program.bare = (parse us).program.bare ∧
      (parse ts).errors.map SyntaxError.bare = (parse us).errors.map SyntaxError.bare := by
  obtain ⟨hbody, hs⟩ := declarations_alike (ofTokens_alike h) (rfl : ([] : List Stmt).map Stmt.bare = [])
  constructor
  · unfold Program.bare
    rw [bareAll_eq_map, bareAll_eq_map]
    exact congrArg (Program.mk · {}) hbody
  · have herrors := congrArg Array.toList hs.errors
    rwa [Array.toList_map, Array.toList_map] at herrors

end RegCode
