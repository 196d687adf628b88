import RegCode.Proofs.ExprComplete
import RegCode.Proofs.Spelling

/-!
# Parsing is complete

Tokens that spell a program of the grammar are read back as that program, places apart, and no error is reported;
and every program whose numbers have numerals is spelled by some tokens. The induction is on the tree, with what
may follow a statement: behind one that ends with an open `if` no `else`.
-/

namespace RegCode

namespace TokenStream

/-! ## Statements without statements inside -/

section
variable {s : TokenStream} {ts tail : List Token} {e : Expr}

theorem finish_gives {t : Token} (hs : s.rest = t :: tail) (hk : t.kind = .semicolon) (first : Token)
    (f : SyntaxFault) (node : Place → Stmt) : (finish first f node s).Gives s tail fun st => ∃ p, st = node p :=
  (expect_gives hs hk f).map fun _ _ _ => ⟨_, rfl⟩

theorem value_gives (hp : e.proper = true) (hs : s.rest = ts ++ tail)
    (hy : Spells ts (e.yield ++ [.mark .semicolon])) (first : Token) (f : SyntaxFault)
    (node : Expr → Place → Stmt) :
    ((expr Kind.weakest s).bind fun e s _ => finish first f (node e) s).Gives s tail fun st =>
      ∃ e' p, st = node e' p ∧ e'.bare = e.bare := by
  obtain ⟨us, vs, rfl, hu, hv⟩ := hy.append_inv
  obtain ⟨semi, ws, rfl, hsemi, hw⟩ := hv.cons_inv
  cases hw.nil_inv
  have hk : semi.kind = .semicolon := semi.kind_of_mark hsemi
  rw [List.append_assoc] at hs
  refine (expr_gives hp hs hu (by rw [List.cons_append, ahead, hk]; decide)).bind fun e' s' _ he' hr => ?_
  refine (finish_gives hr hk first f (node e')).mono ?_
  rintro _ ⟨p, rfl⟩
  exact ⟨e', p, rfl, he'⟩

theorem condition_gives (hp : e.proper = true) (hs : s.rest = ts ++ tail) (hy : Spells ts (Stmt.yieldCond e))
    (opening closing : SyntaxFault) :
    (condition opening closing s).Gives s tail fun e' => e'.bare = e.bare := by
  obtain ⟨t, us, rfl, ht, hu⟩ := hy.cons_inv
  obtain ⟨inner, vs, rfl, hi, hv⟩ := hu.append_inv
  obtain ⟨t', ws, rfl, ht', hw⟩ := hv.cons_inv
  cases hw.nil_inv
  have hk : t'.kind = .rparen := t'.kind_of_mark ht'
  unfold condition
  refine (expect_gives hs (t.kind_of_mark ht) opening).bind fun _ s₁ _ _ hr => ?_
  have hr : s₁.rest = inner ++ t' :: tail := by simpa using hr
  refine (expr_gives hp hr hi (by rw [ahead, hk]; decide)).bind fun e' s₂ _ he' hr' => ?_
  exact (expect_gives hr' hk closing).map fun _ _ _ => he'

theorem varDecl_gives {p : Place} {n : Bytes} {pos : Position} {init : Option Expr} {xs : List Terminal}
    (hp : (Stmt.var p n pos init).proper = true) (hs : s.rest = ts ++ tail) (hy : Spells ts xs)
    (hxs : (Stmt.var p n pos init).yield = .mark .kwVar :: xs) (first : Token) :
    (varDecl first s).Gives s tail fun st => st.bare = (Stmt.var p n pos init).bare := by
  unfold varDecl
  cases init with
  | none =>
    cases hxs
    obtain ⟨t, us, rfl, ht, hu⟩ := hy.cons_inv
    obtain ⟨semi, vs, rfl, hsemi, hv⟩ := hu.cons_inv
    cases hv.nil_inv
    have hk : semi.kind = .semicolon := semi.kind_of_mark hsemi
    refine (expect_gives hs (t.kind_eq_of_terminal? ht) _).bind fun name s₁ _ hname hr => ?_
    subst hname
    rw [skip?_eq_none_of_kind hr (by rw [hk]; decide)]
    refine (finish_gives hr hk first _ _).mono ?_
    rintro _ ⟨q, rfl⟩
    simp [Stmt.bare, name.literal_of_ident ht]
  | some e =>
    cases hxs
    obtain ⟨t, us, rfl, ht, hu⟩ := hy.cons_inv
    obtain ⟨op, vs, rfl, hop, hv⟩ := hu.cons_inv
    refine (expect_gives hs (t.kind_eq_of_terminal? ht) _).bind fun name s₁ _ hname hr => ?_
    subst hname
    rw [skip?_eq_some hr (op.kind_of_mark hop)]
    have hx := value_gives (by simpa [Stmt.proper] using hp) (advance_rest hr) hv first .unendedDeclaration
      fun e p => .var p name.literal name.pos (some e)
    refine .past (.after (hx.mono ?_) _) s₁.errors_advance
    rintro _ ⟨e', q, rfl, he'⟩
    simp [Stmt.bare, name.literal_of_ident ht, he']

end

/-! ## First tokens -/

end TokenStream

/-- The kinds that an expression can begin with. -/
def Kind.beginsExpr : Kind → Bool
  | ident | int | float | string | lparen | bang | minus => true
  | _ => false

/-- The kinds that a statement can begin with, one that declares something or one that does not. -/
def Kind.begins (declares : Bool) : Kind → Bool
  | kwFn | kwVar => declares
  | kwPrint | kwIf | kwWhile | kwReturn | lbrace => !declares
  | k => !declares && k.beginsExpr

theorem Kind.beginsExpr_of_signs {k : Kind} (h : k.signs = true) : k.beginsExpr = true := by
  cases k <;> simp_all [Kind.signs, Kind.beginsExpr]

theorem Kind.begins_of_beginsExpr {k : Kind} (h : k.beginsExpr = true) : k.begins false = true := by
  cases k <;> simp_all [Kind.beginsExpr, Kind.begins]

theorem Kind.begins_ne {k : Kind} {d : Bool} (h : k.begins d = true) : k ≠ .rbrace ∧ k ≠ .kwElse := by
  cases k <;> simp_all [Kind.begins, Kind.beginsExpr]

theorem Kind.begins_false_ne {k : Kind} (h : k.begins false = true) : k ≠ .kwFn ∧ k ≠ .kwVar := by
  cases k <;> simp_all [Kind.begins]

section
variable {ts : List Token}

theorem Expr.first_kind {e : Expr} (hp : e.proper = true) (hy : Spells ts e.yield) :
    ∃ t rest, ts = t :: rest ∧ t.kind.beginsExpr = true := by
  induction e generalizing ts with
  | binary p op left right ihl _ =>
    simp only [proper, Bool.and_eq_true] at hp
    obtain ⟨us, vs, rfl, hu, -⟩ := hy.append_inv
    obtain ⟨t, rest, rfl, ht⟩ := ihl hp.1.2 hu
    exact ⟨t, rest ++ vs, rfl, ht⟩
  | literal p v =>
    cases v with
    | unmarked => cases hp
    | _ =>
      obtain ⟨t, us, rfl, ht, -⟩ := hy.cons_inv
      exact ⟨t, us, rfl, by rw [t.kind_eq_of_terminal? ht]; rfl⟩
  | unary p op e _ =>
    simp only [proper, Bool.and_eq_true] at hp
    obtain ⟨t, us, rfl, ht, -⟩ := hy.cons_inv
    exact ⟨t, us, rfl, t.kind_of_mark ht ▸ Kind.beginsExpr_of_signs hp.1.1⟩
  | hole => cases hp
  | _ =>
    obtain ⟨t, us, rfl, ht, -⟩ := hy.cons_inv
    exact ⟨t, us, rfl, by rw [t.kind_eq_of_terminal? ht]; rfl⟩

theorem Stmt.first_kind {x : Stmt} (hp : x.proper = true) (hy : Spells ts x.yield) :
    ∃ t rest, ts = t :: rest ∧ t.kind.begins x.declares = true := by
  cases x with
  | expr p e =>
    obtain ⟨us, vs, rfl, hu, -⟩ := hy.append_inv
    obtain ⟨t, rest, rfl, ht⟩ := e.first_kind hp hu
    exact ⟨t, rest ++ vs, rfl, Kind.begins_of_beginsExpr ht⟩
  | bad | hole => cases hp
  | var p n pos init =>
    cases init with
    | _ =>
      obtain ⟨t, us, rfl, ht, -⟩ := hy.cons_inv
      exact ⟨t, us, rfl, by rw [t.kind_eq_of_terminal? ht]; rfl⟩
  | ret p value =>
    cases value with
    | _ =>
      obtain ⟨t, us, rfl, ht, -⟩ := hy.cons_inv
      exact ⟨t, us, rfl, by rw [t.kind_eq_of_terminal? ht]; rfl⟩
  | _ =>
    obtain ⟨t, us, rfl, ht, -⟩ := hy.cons_inv
    exact ⟨t, us, rfl, by rw [t.kind_eq_of_terminal? ht]; rfl⟩

end

namespace TokenStream

theorem noElse_nil : NoElse [] :=
  fun _ _ h => absurd h (List.cons_ne_nil _ _).symm

theorem noElse_cons {t : Token} {rest : List Token} (h : t.kind ≠ .kwElse) : NoElse (t :: rest) := by
  rintro _ _ ⟨⟩
  exact h

theorem noElse_append {xs : List Stmt} {ts tail : List Token} (hp : Stmt.properAll xs = true)
    (hy : Spells ts (Stmt.yieldAll xs)) (htail : NoElse tail) : NoElse (ts ++ tail) := by
  cases xs with
  | nil =>
    cases hy.nil_inv
    exact htail
  | cons x rest =>
    simp only [Stmt.properAll, Bool.and_eq_true] at hp
    obtain ⟨us, vs, rfl, hu, -⟩ := hy.append_inv
    obtain ⟨t, us', rfl, ht⟩ := x.first_kind hp.1 hu
    exact noElse_cons (Kind.begins_ne ht).2

/-! ## Parameters -/

theorem parameters_name {start s : TokenStream} {acc : List Param} {t : Token} {rest tail : List Token}
    {P : List Param → Prop} (lt : s.left < start.left) (hs : s.rest = t :: rest) (ht : t.kind = .ident)
    (hle : acc.length < maxParams)
    (h : ∀ next : TokenStream, next.rest = rest → ∀ lt' : next.left < start.left,
      Reading.Gives next tail P (match next.skip? .comma with
        | some ⟨next', lt''⟩ => parameters start (⟨t.literal, t.pos⟩ :: acc) next' (Nat.lt_trans lt'' lt')
        | none => ((next.expect .rparen .unclosedParameters).map fun _ _ =>
            (⟨t.literal, t.pos⟩ :: acc).reverse).after lt')) :
    (parameters start acc s lt).Gives s tail P := by
  have hif : (if (acc.drop (maxParams - 1)).isEmpty then s else s.report s.current .tooManyParameters) = s := by
    refine if_pos ?_
    rw [List.isEmpty_iff, List.drop_eq_nil_iff]
    exact Nat.le_of_lt_succ hle
  have hx := expect_gives (s := if (acc.drop (maxParams - 1)).isEmpty then s else
    s.report s.current .tooManyParameters) (hif ▸ hs) ht .noParameterName
  rw [parameters]
  split
  · rename_i hE
    rw [hE] at hx
    exact hx.elim
  · rename_i name next lt' hE
    rw [hE] at hx
    obtain ⟨rfl, hr, he⟩ := hx
    rw [hif] at lt'
    exact (h next hr (Nat.lt_trans lt' lt)).past (he.trans (congrArg errors hif))

theorem parameters_gives {start s : TokenStream} {ps : List Param} {p : Param} {ts tail : List Token}
    (acc : List Param) (lt : s.left < start.left) (hs : s.rest = ts ++ tail)
    (hy : Spells ts (Stmt.yieldParams (p :: ps) ++ [.mark .rparen])) (hle : acc.length + ps.length < maxParams) :
    (parameters start acc s lt).Gives s tail fun l =>
      l.map Param.bare = (acc.reverse ++ p :: ps).map Param.bare := by
  induction ps generalizing acc p s ts with
  | nil =>
    obtain ⟨t, us, rfl, ht, hu⟩ := hy.cons_inv
    obtain ⟨c, vs, rfl, hc, hv⟩ := hu.cons_inv
    cases hv.nil_inv
    have hk : c.kind = .rparen := c.kind_of_mark hc
    refine parameters_name lt hs (t.kind_eq_of_terminal? ht) hle fun next hr lt' => ?_
    rw [skip?_eq_none_of_kind hr (by rw [hk]; decide)]
    refine .after ((expect_gives hr hk _).map fun _ _ _ => ?_) _
    simp [Param.bare, t.literal_of_ident ht]
  | cons q ps ih =>
    obtain ⟨t, us, rfl, ht, hu⟩ := hy.cons_inv
    obtain ⟨c, vs, rfl, hc, hv⟩ := hu.cons_inv
    simp only [List.length_cons] at hle
    refine parameters_name lt hs (t.kind_eq_of_terminal? ht) (by omega) fun next hr lt' => ?_
    rw [skip?_eq_some hr (c.kind_of_mark hc)]
    have hrest := ih (⟨t.literal, t.pos⟩ :: acc) (Nat.lt_trans (left_advance_lt hr) lt') (advance_rest hr) hv
      (by simp only [List.length_cons]; omega)
    refine .past (hrest.mono fun l hl => ?_) next.errors_advance
    rw [hl]
    simp [Param.bare, t.literal_of_ident ht]

end TokenStream

theorem Stmt.yieldParams_cons (p : Param) (ps : List Param) :
    ∃ xs, yieldParams (p :: ps) = .ident p.name :: xs := by
  cases ps <;> exact ⟨_, rfl⟩

namespace TokenStream

theorem parameterList_gives {s : TokenStream} {ps : List Param} {ts tail : List Token} (hs : s.rest = ts ++ tail)
    (hy : Spells ts (.mark .lparen :: Stmt.yieldParams ps ++ [.mark .rparen])) (hle : ps.length ≤ maxParams) :
    (parameterList s).Gives s tail fun l => l.map Param.bare = ps.map Param.bare := by
  obtain ⟨t, us, rfl, ht, hu⟩ := hy.cons_inv
  unfold parameterList
  refine (expect_gives hs (t.kind_of_mark ht) _).follow fun _ s₁ lt₁ _ hr => ?_
  cases ps with
  | nil =>
    obtain ⟨c, vs, rfl, hc, hv⟩ := hu.cons_inv
    cases hv.nil_inv
    rw [skip?_eq_some hr (c.kind_of_mark hc)]
    refine .after ?_ _
    exact ⟨rfl, advance_rest hr, s₁.errors_advance⟩
  | cons p ps =>
    have hne : s₁.skip? .rparen = none := by
      obtain ⟨xs, hxs⟩ := Stmt.yieldParams_cons p ps
      rw [List.append_eq, hxs] at hu
      obtain ⟨name, vs, rfl, hname, -⟩ := hu.cons_inv
      refine skip?_eq_none_of_kind hr ?_
      rw [name.kind_eq_of_terminal? hname]
      exact Kind.noConfusion
    rw [hne]
    refine parameters_gives [] lt₁ hr hu ?_
    simp only [List.length_nil, List.length_cons] at *
    omega

/-! ## Blocks -/

/-- The tokens of the statement are read back, by `declaration`. -/
def DeclarationReads (x : Stmt) : Prop :=
  ∀ ⦃s : TokenStream⦄ ⦃ts tail : List Token⦄, s.rest = ts ++ tail → Spells ts x.yield →
    (x.endsOpen = true → NoElse tail) → ∀ (first : Token) (rest : List Token) (h : s.rest = first :: rest),
      (declaration s first rest h).1.1.bare = x.bare ∧ (declaration s first rest h).1.2.rest = tail ∧
        (declaration s first rest h).1.2.errors = s.errors

theorem DeclarationReads.head {x : Stmt} {xs : List Stmt} (h : DeclarationReads x)
    (hp : Stmt.properAll (x :: xs) = true) {s : TokenStream} {ts tail : List Token} (hs : s.rest = ts ++ tail)
    (hy : Spells ts (Stmt.yieldAll (x :: xs))) (htail : NoElse tail) :
    ∃ first rest, ∃ hr : s.rest = first :: rest, first.kind ≠ .rbrace ∧
      (declaration s first rest hr).1.1.bare = x.bare ∧
      (declaration s first rest hr).1.2.errors = s.errors ∧
      ∃ vs, (declaration s first rest hr).1.2.rest = vs ++ tail ∧ Spells vs (Stmt.yieldAll xs) := by
  simp only [Stmt.properAll, Bool.and_eq_true] at hp
  obtain ⟨us, vs, rfl, hu, hv⟩ := hy.append_inv
  rw [List.append_assoc] at hs
  obtain ⟨first, us', rfl, hfirst⟩ := x.first_kind hp.1 hu
  obtain ⟨hb, hr, he⟩ := h hs hu (fun _ => noElse_append hp.2 hv htail) first _ hs
  exact ⟨first, _, hs, (Kind.begins_ne hfirst).1, hb, he, vs, hr, hv⟩

theorem block_gives {xs : List Stmt} (hxs : ∀ x ∈ xs, DeclarationReads x) (hp : Stmt.properAll xs = true)
    (acc : List Stmt) {start s : TokenStream} {ts tail : List Token} {close : Token} (lt : s.left < start.left)
    (hs : s.rest = ts ++ close :: tail) (hy : Spells ts (Stmt.yieldAll xs)) (hc : close.kind = .rbrace) :
    (block start acc s lt).Gives s tail fun l => l.map Stmt.bare = (acc.reverse ++ xs).map Stmt.bare := by
  induction xs generalizing acc s ts with
  | nil =>
    cases hy.nil_inv
    rw [block]
    split
    · rename_i h
      rw [hs] at h
      cases h
    · rename_i t rest h
      rw [hs] at h
      cases h
      rw [if_pos hc]
      exact ⟨by rw [List.append_nil], advance_rest hs, s.errors_advance⟩
  | cons x xs ih =>
    have htail : NoElse (close :: tail) := noElse_cons (by rw [hc]; decide)
    obtain ⟨first, rest, hr, hne, hb, he, vs, hvs, hv⟩ := (hxs x (.head _)).head hp hs hy htail
    simp only [Stmt.properAll, Bool.and_eq_true] at hp
    rw [block]
    split
    · rename_i h
      rw [hr] at h
      cases h
    · rename_i t rest' h
      obtain ⟨rfl, rfl⟩ := List.cons.inj (hr.symm.trans h)
      rw [if_neg hne]
      split
      rename_i st next lt' hE
      rw [hE] at hb he hvs
      refine .past ((ih (fun y hy => hxs y (.tail _ hy)) hp.2 (st :: acc) _ hvs hv).mono fun l hl => ?_) he
      rw [hl]
      simp [hb]

theorem declarations_gives {xs : List Stmt} (hxs : ∀ x ∈ xs, DeclarationReads x) (hp : Stmt.properAll xs = true)
    (acc : List Stmt) {s : TokenStream} (hy : Spells s.rest (Stmt.yieldAll xs)) :
    (declarations acc s).1.map Stmt.bare = (acc.reverse ++ xs).map Stmt.bare ∧
      (declarations acc s).2.errors = s.errors := by
  induction xs generalizing acc s with
  | nil =>
    rw [declarations]
    split
    · exact ⟨by rw [List.append_nil], rfl⟩
    · rename_i t rest h
      rw [h] at hy
      cases hy.nil_inv
  | cons x xs ih =>
    obtain ⟨first, rest, hr, -, hb, he, vs, hvs, hv⟩ :=
      (hxs x (.head _)).head hp (List.append_nil _).symm hy noElse_nil
    simp only [Stmt.properAll, Bool.and_eq_true] at hp
    rw [declarations]
    split
    · rename_i h
      rw [hr] at h
      cases h
    · rename_i t rest' h
      obtain ⟨rfl, rfl⟩ := List.cons.inj (hr.symm.trans h)
      split
      rename_i st next lt' hE
      rw [hE] at hb he hvs
      rw [List.append_nil] at hvs
      obtain ⟨hl, he'⟩ := ih (fun y hy => hxs y (.tail _ hy)) hp.2 (st :: acc) (s := next) (hvs ▸ hv)
      refine ⟨?_, he'.trans he⟩
      rw [hl]
      simp [hb]

/-! ## Statements -/

theorem statement_eq {s : TokenStream} {t : Token} {rest : List Token} (h : s.rest = t :: rest) :
    statement s = match t.kind with
      | .kwIf => (ifStmt t s.advance).after (left_advance_lt h)
      | .kwWhile => (whileStmt t s.advance).after (left_advance_lt h)
      | .kwReturn => (returnStmt t s.advance).after (left_advance_lt h)
      | .kwPrint => (printStmt t s.advance).after (left_advance_lt h)
      | .lbrace =>
        (block s [] s.advance (left_advance_lt h)).map fun body last => .block (.between t last) body
      | _ => exprStmt s := by
  rw [statement]
  split
  · rename_i h'
    rw [h] at h'
    cases h'
  · rename_i t' rest' h'
    rw [h] at h'
    cases h'
    rfl

theorem statement_eq_exprStmt {s : TokenStream} {t : Token} {rest : List Token} (h : s.rest = t :: rest)
    (ht : t.kind.beginsExpr = true) : statement s = exprStmt s := by
  rw [statement_eq h]
  split
  case h_6 => rfl
  all_goals
    rename_i hk
    rw [hk] at ht
    cases ht

/-- The tokens of the statement are read back, by `statement`. -/
def StatementReads (x : Stmt) : Prop :=
  ∀ ⦃s : TokenStream⦄ ⦃ts tail : List Token⦄, s.rest = ts ++ tail → Spells ts x.yield →
    (x.endsOpen = true → NoElse tail) → (statement s).Gives s tail fun st => st.bare = x.bare

theorem declaration_gives {s : TokenStream} {tail : List Token} {P : Stmt → Prop} {first : Token}
    {rest : List Token} (h : s.rest = first :: rest)
    (hx : (attempt s first (left_advance_lt h)).Gives s tail P) :
    P (declaration s first rest h).1.1 ∧ (declaration s first rest h).1.2.rest = tail ∧
      (declaration s first rest h).1.2.errors = s.errors := by
  rw [declaration]
  split
  · rename_i st next lt' heq
    exact (congrArg (Reading.Gives s tail P) heq).mp hx
  · rename_i f next moved le heq
    exact ((congrArg (Reading.Gives s tail P) heq).mp hx).elim

theorem StatementReads.declaration {x : Stmt} (h : StatementReads x) (hp : x.proper = true)
    (hd : x.declares = false) : DeclarationReads x := by
  intro s ts tail hs hy hopen first rest hr
  refine declaration_gives (P := fun st => st.bare = x.bare) hr ?_
  obtain ⟨t, us, rfl, ht⟩ := x.first_kind hp hy
  cases hr.symm.trans hs
  rw [hd] at ht
  have hne := Kind.begins_false_ne ht
  unfold attempt
  split
  · exact absurd ‹_› hne.1
  · exact absurd ‹_› hne.2
  · exact h hs hy hopen

theorem bareAll_eq_map (xs : List Stmt) : Stmt.bareAll xs = xs.map Stmt.bare := by
  induction xs with
  | nil => rfl
  | cons x xs ih => rw [Stmt.bareAll, ih, List.map_cons]

section
variable {p : Place} {e : Expr}

theorem print_reads (hp : (Stmt.print p e).proper = true) : StatementReads (.print p e) := by
  intro s ts tail hs hy _
  obtain ⟨t, us, rfl, ht, hu⟩ := hy.cons_inv
  have hk : t.kind = .kwPrint := t.kind_of_mark ht
  have hx := value_gives hp (advance_rest hs) hu t .unendedPrint fun e p => .print p e
  simp only [statement_eq hs, hk]
  refine .past (.after (hx.mono ?_) _) s.errors_advance
  rintro _ ⟨e', q, rfl, he'⟩
  simp [Stmt.bare, he']

theorem ret_reads {value : Option Expr} (hp : (Stmt.ret p value).proper = true) :
    StatementReads (.ret p value) := by
  intro s ts tail hs hy _
  cases value with
  | none =>
    obtain ⟨t, us, rfl, ht, hu⟩ := hy.cons_inv
    obtain ⟨semi, vs, rfl, hsemi, hv⟩ := hu.cons_inv
    cases hv.nil_inv
    have hk : t.kind = .kwReturn := t.kind_of_mark ht
    have hk' : semi.kind = .semicolon := semi.kind_of_mark hsemi
    have hr := advance_rest hs
    simp only [statement_eq hs, hk]
    refine .past (.after ?_ _) s.errors_advance
    have hcur : s.advance.current.kind = .semicolon := by rw [current, hr]; exact hk'
    rw [returnStmt, if_pos hcur]
    refine (finish_gives hr hk' t _ _).mono ?_
    rintro _ ⟨q, rfl⟩
    rfl
  | some e =>
    obtain ⟨t, us, rfl, ht, hu⟩ := hy.cons_inv
    have hk : t.kind = .kwReturn := t.kind_of_mark ht
    have hpe : e.proper = true := by simpa [Stmt.proper] using hp
    have hr := advance_rest hs
    have hcur : s.advance.current.kind ≠ .semicolon := by
      obtain ⟨vs, ws, rfl, hv, -⟩ := hu.append_inv
      obtain ⟨t', vs', rfl, ht'⟩ := e.first_kind hpe hv
      rw [current, hr]
      intro h
      rw [show t'.kind = .semicolon from h] at ht'
      cases ht'
    have hx := value_gives hpe hr hu t .unendedReturn fun e p => .ret p (some e)
    simp only [statement_eq hs, hk]
    refine .past (.after ?_ _) s.errors_advance
    rw [returnStmt, if_neg hcur]
    refine hx.mono ?_
    rintro _ ⟨e', q, rfl, he'⟩
    simp [Stmt.bare, he']

theorem expr_reads (hp : (Stmt.expr p e).proper = true) : StatementReads (.expr p e) := by
  intro s ts tail hs hy _
  have hx := value_gives hp hs hy s.current .unendedExpression fun e p => .expr p e
  have hst : statement s = exprStmt s := by
    obtain ⟨us, vs, rfl, hu, -⟩ := hy.append_inv
    obtain ⟨t, us', rfl, ht⟩ := e.first_kind hp hu
    exact statement_eq_exprStmt hs ht
  rw [hst]
  refine hx.mono ?_
  rintro _ ⟨e', q, rfl, he'⟩
  simp [Stmt.bare, he']

end

theorem var_reads {p : Place} {n : Bytes} {pos : Position} {init : Option Expr}
    (hp : (Stmt.var p n pos init).proper = true) : DeclarationReads (.var p n pos init) := by
  intro s ts tail hs hy _ first rest hr
  refine declaration_gives (P := fun st => st.bare = (Stmt.var p n pos init).bare) hr ?_
  obtain ⟨xs, hxs⟩ : ∃ xs, (Stmt.var p n pos init).yield = .mark .kwVar :: xs := by
    cases init <;> exact ⟨_, rfl⟩
  rw [hxs] at hy
  obtain ⟨t, us, rfl, ht, hu⟩ := hy.cons_inv
  cases hr.symm.trans hs
  simp only [attempt, first.kind_of_mark ht]
  exact .past (.after (varDecl_gives hp (advance_rest hs) hu hxs first) _) s.errors_advance

section
variable {p : Place} {e : Expr} {yes no x : Stmt} {body : List Stmt}

theorem block_reads (hp : (Stmt.block p body).proper = true) (h : ∀ x ∈ body, DeclarationReads x) :
    StatementReads (.block p body) := by
  intro s ts tail hs hy _
  obtain ⟨t, us, rfl, ht, hu⟩ := hy.cons_inv
  obtain ⟨inner, vs, rfl, hi, hv⟩ := hu.append_inv
  obtain ⟨close, ws, rfl, hc, hw⟩ := hv.cons_inv
  cases hw.nil_inv
  have hk : t.kind = .lbrace := t.kind_of_mark ht
  have hr : s.advance.rest = inner ++ close :: tail := by
    rw [advance_rest hs]
    simp
  have hx := block_gives h hp [] (left_advance_lt hs) hr hi (close.kind_of_mark hc)
  simp only [statement_eq hs, hk]
  refine .past (hx.map fun l _ hl => ?_) s.errors_advance
  rw [Stmt.bare, Stmt.bare, bareAll_eq_map, bareAll_eq_map, hl]
  rfl

theorem while_reads (hp : (Stmt.while p e x).proper = true) (h : StatementReads x) :
    StatementReads (.while p e x) := by
  intro s ts tail hs hy hopen
  simp only [Stmt.proper, Bool.and_eq_true] at hp
  obtain ⟨t, us, rfl, ht, hu⟩ := hy.cons_inv
  obtain ⟨cs, bs, rfl, hcs, hbs⟩ := hu.append_inv
  have hk : t.kind = .kwWhile := t.kind_of_mark ht
  have hr : s.advance.rest = cs ++ (bs ++ tail) := by
    rw [advance_rest hs, List.append_eq, List.append_assoc]
  simp only [statement_eq hs, hk]
  refine .past (.after ?_ _) s.errors_advance
  rw [whileStmt]
  refine (condition_gives hp.1.1 hr hcs _ _).bind fun e' s₁ _ he' hr₁ => ?_
  refine (h hr₁ hbs hopen).map fun x' _ hx' => ?_
  simp [Stmt.bare, he', hx']

theorem ifThen_reads (hp : (Stmt.ifThen p e yes).proper = true) (h : StatementReads yes) :
    StatementReads (.ifThen p e yes) := by
  intro s ts tail hs hy hopen
  have helse := hopen rfl
  simp only [Stmt.proper, Bool.and_eq_true] at hp
  obtain ⟨t, us, rfl, ht, hu⟩ := hy.cons_inv
  obtain ⟨cs, bs, rfl, hcs, hbs⟩ := hu.append_inv
  have hk : t.kind = .kwIf := t.kind_of_mark ht
  have hr : s.advance.rest = cs ++ (bs ++ tail) := by
    rw [advance_rest hs, List.append_eq, List.append_assoc]
  simp only [statement_eq hs, hk]
  refine .past (.after ?_ _) s.errors_advance
  rw [ifStmt]
  refine (condition_gives hp.1.1 hr hcs _ _).bind fun e' s₁ _ he' hr₁ => ?_
  refine (h hr₁ hbs fun _ => helse).follow fun yes' s₂ _ hyes' hr₂ => ?_
  rw [skip?_eq_none (hr₂ ▸ helse)]
  exact ⟨by simp [Stmt.bare, he', hyes'], hr₂, rfl⟩

theorem ifElse_reads (hp : (Stmt.ifElse p e yes no).proper = true) (hyes : StatementReads yes)
    (hno : StatementReads no) : StatementReads (.ifElse p e yes no) := by
  intro s ts tail hs hy hopen
  simp only [Stmt.proper, Bool.and_eq_true, Bool.not_eq_true'] at hp
  obtain ⟨⟨⟨⟨⟨hpe, -⟩, -⟩, hclosed⟩, -⟩, -⟩ := hp
  obtain ⟨us, ns, rfl, hu, hns⟩ := hy.append_inv
  obtain ⟨t, vs, rfl, ht, hv⟩ := hu.cons_inv
  obtain ⟨cs, bs, rfl, hcs, hbs⟩ := hv.append_inv
  obtain ⟨t', ns, rfl, ht', hns⟩ := hns.cons_inv
  have hk : t.kind = .kwIf := t.kind_of_mark ht
  rw [List.append_assoc, List.cons_append] at hs
  have hr : s.advance.rest = cs ++ (bs ++ t' :: (ns ++ tail)) := by
    rw [advance_rest hs]
    simp
  simp only [statement_eq hs, hk]
  refine .past (.after ?_ _) s.errors_advance
  rw [ifStmt]
  refine (condition_gives hpe hr hcs _ _).bind fun e' s₁ _ he' hr₁ => ?_
  -- the branch is not open, so whatever follows it may be an `else`
  refine (hyes hr₁ hbs (Stmt.of_not_endsOpen hclosed)).follow fun yes' s₂ _ hyes' hr₂ => ?_
  rw [skip?_eq_some hr₂ (t'.kind_of_mark ht')]
  refine .past (.after ((hno (advance_rest hr₂) hns hopen).map fun no' _ hno' => ?_) _) s₂.errors_advance
  simp [Stmt.bare, he', hyes', hno']

end

theorem func_reads {p : Place} {n : Bytes} {pos : Position} {ps : List Param} {body : List Stmt}
    (hp : (Stmt.func p n pos ps body).proper = true) (h : ∀ x ∈ body, DeclarationReads x) :
    DeclarationReads (.func p n pos ps body) := by
  intro s ts tail hs hy _ first rest hr
  refine declaration_gives (P := fun st => st.bare = (Stmt.func p n pos ps body).bare) hr ?_
  simp only [Stmt.proper, Bool.and_eq_true, decide_eq_true_eq] at hp
  have hy' : Spells ts (.mark .kwFn :: .ident n :: ((.mark .lparen :: Stmt.yieldParams ps ++ [.mark .rparen]) ++
      .mark .lbrace :: (Stmt.yieldAll body ++ [.mark .rbrace]))) := by
    simpa [Stmt.yield] using hy
  obtain ⟨t, us, rfl, ht, hu⟩ := hy'.cons_inv
  obtain ⟨name, vs, rfl, hname, hv⟩ := hu.cons_inv
  obtain ⟨params, ws, rfl, hps, hw⟩ := hv.append_inv
  obtain ⟨opening, bs, rfl, ho, hb⟩ := hw.cons_inv
  obtain ⟨inner, cs, rfl, hi, hc⟩ := hb.append_inv
  obtain ⟨close, ds, rfl, hclose, hd⟩ := hc.cons_inv
  cases hd.nil_inv
  cases hr.symm.trans hs
  simp only [attempt, first.kind_of_mark ht]
  refine .past (.after ?_ _) s.errors_advance
  have hrest : s.advance.rest = name :: (params ++ opening :: (inner ++ close :: tail)) := by
    rw [advance_rest hs]
    simp
  rw [funcDecl]
  refine (expect_gives hrest (name.kind_eq_of_terminal? hname) _).bind fun name' s₁ _ hname' hr₁ => ?_
  subst hname'
  refine (parameterList_gives hr₁ hps hp.1).bind fun ps' s₂ _ hps' hr₂ => ?_
  refine (expect_gives hr₂ (opening.kind_of_mark ho) _).follow fun _ s₃ lt₃ _ hr₃ => ?_
  refine (block_gives h hp.2 [] lt₃ hr₃ hi (close.kind_of_mark hclose)).map fun l _ hl => ?_
  rw [Stmt.bare, Stmt.bare, bareAll_eq_map, bareAll_eq_map, hl, hps', name'.literal_of_ident hname]
  rfl

mutual

/-- A statement is read back, by `declaration` and, unless it declares something, by `statement`. -/
theorem stmt_reads : ∀ x : Stmt, x.proper = true → DeclarationReads x ∧ (x.declares = false → StatementReads x)
  | .var .., hp => ⟨var_reads hp, Bool.noConfusion⟩
  | .func _ _ _ _ body, hp => by
    have hb := hp
    simp only [Stmt.proper, Bool.and_eq_true] at hb
    exact ⟨func_reads hp (stmts_read body hb.2), Bool.noConfusion⟩
  | .print .., hp => ⟨(print_reads hp).declaration hp rfl, fun _ => print_reads hp⟩
  | .expr .., hp => ⟨(expr_reads hp).declaration hp rfl, fun _ => expr_reads hp⟩
  | .ret .., hp => ⟨(ret_reads hp).declaration hp rfl, fun _ => ret_reads hp⟩
  | .block _ body, hp => by
    have h := block_reads hp (stmts_read body hp)
    exact ⟨h.declaration hp rfl, fun _ => h⟩
  | .while _ _ body, hp => by
    have hb := hp
    simp only [Stmt.proper, Bool.and_eq_true, Bool.not_eq_true'] at hb
    have h := while_reads hp ((stmt_reads body hb.2).2 hb.1.2)
    exact ⟨h.declaration hp rfl, fun _ => h⟩
  | .ifThen _ _ yes, hp => by
    have hb := hp
    simp only [Stmt.proper, Bool.and_eq_true, Bool.not_eq_true'] at hb
    have h := ifThen_reads hp ((stmt_reads yes hb.2).2 hb.1.2)
    exact ⟨h.declaration hp rfl, fun _ => h⟩
  | .ifElse _ _ yes no, hp => by
    have hb := hp
    simp only [Stmt.proper, Bool.and_eq_true, Bool.not_eq_true'] at hb
    obtain ⟨⟨⟨⟨⟨-, hyd⟩, hyp⟩, -⟩, hnd⟩, hnp⟩ := hb
    have h := ifElse_reads hp ((stmt_reads yes hyp).2 hyd) ((stmt_reads no hnp).2 hnd)
    exact ⟨h.declaration hp rfl, fun _ => h⟩

theorem stmts_read : ∀ xs : List Stmt, Stmt.properAll xs = true → ∀ x ∈ xs, DeclarationReads x
  | [], _ => fun _ h => absurd h List.not_mem_nil
  | x :: xs, hp => by
    simp only [Stmt.properAll, Bool.and_eq_true] at hp
    intro y hy
    cases hy with
    | head => exact (stmt_reads x hp.1).1
    | tail _ hy => exact stmts_read xs hp.2 y hy

end

end TokenStream

/-! ## Spelling a program -/

theorem Kind.isMark_of_joins {k : Kind} (h : k.joins = true) : k.isMark = true :=
  Kind.isMark_of_strength (Nat.lt_trans (by decide) (Kind.assign_lt_of_joins h))

theorem Kind.isMark_of_signs {k : Kind} (h : k.signs = true) : k.isMark = true := by
  cases k <;> simp_all [Kind.signs, Kind.isMark]

theorem Expr.isMark_of_mem {e : Expr} (hp : e.proper = true) {k : Kind} (h : .mark k ∈ e.yield) :
    k.isMark = true := by
  induction e with
  | literal p v => cases v <;> simp [yield, Literal.yield] at h
  | name p n => simp [yield] at h
  | hole => cases hp
  | binary p op left right ihl ihr =>
    simp only [proper, Bool.and_eq_true] at hp
    simp only [yield, List.mem_append, List.mem_cons, Terminal.mark.injEq] at h
    obtain h | rfl | h := h
    · exact ihl hp.1.2 h
    · exact Kind.isMark_of_joins hp.1.1.1.1
    · exact ihr hp.2 h
  | unary p op e ih =>
    simp only [proper, Bool.and_eq_true] at hp
    simp only [yield, List.mem_cons, Terminal.mark.injEq] at h
    obtain rfl | h := h
    · exact Kind.isMark_of_signs hp.1.1
    · exact ih hp.2 h
  | group p e ih =>
    simp only [yield, List.cons_append, List.mem_cons, List.mem_append, Terminal.mark.injEq, List.not_mem_nil,
      or_false] at h
    obtain rfl | h | rfl := h
    · rfl
    · exact ih hp h
    · rfl
  | assign p n e ih =>
    simp only [yield, List.mem_cons, Terminal.mark.injEq, reduceCtorEq, false_or] at h
    obtain rfl | h := h
    · rfl
    · exact ih hp h

namespace Stmt

theorem isMark_of_mem_params {ps : List Param} {k : Kind} (h : .mark k ∈ yieldParams ps) : k = .comma := by
  induction ps with
  | nil => simp [yieldParams] at h
  | cons p ps ih =>
    cases ps with
    | nil => simp [yieldParams] at h
    | cons q ps =>
      simp only [yieldParams, List.mem_cons, reduceCtorEq, Terminal.mark.injEq, false_or] at h
      exact h.elim id ih

theorem isMark_of_mem_value {e : Expr} {k k' : Kind} (hp : e.proper = true) (hk' : k'.isMark = true)
    (h : .mark k ∈ e.yield ++ [.mark k']) : k.isMark = true := by
  simp only [List.mem_append, List.mem_singleton, Terminal.mark.injEq] at h
  obtain h | rfl := h
  · exact e.isMark_of_mem hp h
  · exact hk'

theorem isMark_of_mem_cond {e : Expr} {k : Kind} (hp : e.proper = true) (h : .mark k ∈ yieldCond e) :
    k.isMark = true := by
  rw [yieldCond, List.cons_append, List.mem_cons, Terminal.mark.injEq] at h
  obtain rfl | h := h
  · rfl
  · exact isMark_of_mem_value hp rfl h

def MarksIn (x : Stmt) : Prop := ∀ ⦃k : Kind⦄, .mark k ∈ x.yield → k.isMark = true

mutual

theorem isMark_of_mem : ∀ x : Stmt, x.proper = true → x.MarksIn
  | var _ _ _ none, _ => by
    intro k h
    simp only [yield, List.mem_cons, Terminal.mark.injEq, reduceCtorEq, List.not_mem_nil, or_false, false_or] at h
    obtain rfl | rfl := h <;> rfl
  | var _ _ _ (some e), hp => by
    intro k h
    simp only [yield, List.cons_append, List.mem_cons, Terminal.mark.injEq, reduceCtorEq, false_or] at h
    obtain rfl | rfl | h := h
    · rfl
    · rfl
    · exact isMark_of_mem_value (by simpa [proper] using hp) rfl h
  | print _ e, hp => by
    intro k h
    simp only [yield, List.cons_append, List.mem_cons, Terminal.mark.injEq] at h
    obtain rfl | h := h
    · rfl
    · exact isMark_of_mem_value hp rfl h
  | expr _ e, hp => fun _ h => isMark_of_mem_value hp rfl h
  | ret _ none, _ => by
    intro k h
    simp only [yield, List.mem_cons, Terminal.mark.injEq, List.not_mem_nil, or_false] at h
    obtain rfl | rfl := h <;> rfl
  | ret _ (some e), hp => by
    intro k h
    simp only [yield, List.cons_append, List.mem_cons, Terminal.mark.injEq] at h
    obtain rfl | h := h
    · rfl
    · exact isMark_of_mem_value (by simpa [proper] using hp) rfl h
  | block _ body, hp => by
    intro k h
    simp only [yield, List.cons_append, List.mem_cons, List.mem_append, Terminal.mark.injEq, List.not_mem_nil,
      or_false] at h
    obtain rfl | h | rfl := h
    · rfl
    · exact isMark_of_mem_all body hp h
    · rfl
  | ifThen _ e yes, hp => by
    intro k h
    simp only [proper, Bool.and_eq_true] at hp
    simp only [yield, List.cons_append, List.mem_cons, List.mem_append, Terminal.mark.injEq] at h
    obtain rfl | h | h := h
    · rfl
    · exact isMark_of_mem_cond hp.1.1 h
    · exact isMark_of_mem yes hp.2 h
  | ifElse _ e yes no, hp => by
    intro k h
    simp only [proper, Bool.and_eq_true] at hp
    obtain ⟨⟨⟨⟨⟨he, -⟩, hyes⟩, -⟩, -⟩, hno⟩ := hp
    simp only [yield, List.cons_append, List.mem_cons, List.mem_append, Terminal.mark.injEq] at h
    obtain rfl | (h | h) | rfl | h := h
    · rfl
    · exact isMark_of_mem_cond he h
    · exact isMark_of_mem yes hyes h
    · rfl
    · exact isMark_of_mem no hno h
  | .while _ e body, hp => by
    intro k h
    simp only [proper, Bool.and_eq_true] at hp
    simp only [yield, List.cons_append, List.mem_cons, List.mem_append, Terminal.mark.injEq] at h
    obtain rfl | h | h := h
    · rfl
    · exact isMark_of_mem_cond hp.1.1 h
    · exact isMark_of_mem body hp.2 h
  | func _ _ _ ps body, hp => by
    intro k h
    simp only [proper, Bool.and_eq_true] at hp
    simp only [yield, List.cons_append, List.append_assoc, List.mem_cons, List.mem_append, Terminal.mark.injEq,
      reduceCtorEq, false_or, List.not_mem_nil, or_false] at h
    obtain rfl | rfl | h | rfl | rfl | h | rfl := h
    · rfl
    · rfl
    · rw [isMark_of_mem_params h]
      rfl
    · rfl
    · rfl
    · exact isMark_of_mem_all body hp.2 h
    · rfl

theorem isMark_of_mem_all : ∀ xs : List Stmt, properAll xs = true → ∀ ⦃k : Kind⦄, .mark k ∈ yieldAll xs →
    k.isMark = true
  | [], _ => fun _ h => absurd h List.not_mem_nil
  | x :: xs, hp => by
    intro k h
    simp only [properAll, Bool.and_eq_true] at hp
    rcases List.mem_append.mp h with h | h
    · exact isMark_of_mem x hp.1 h
    · exact isMark_of_mem_all xs hp.2 h

end

end Stmt

namespace Terminal

/-- The numbers that a numeral without a sign stands for. -/
def inRange : Terminal → Bool
  | int v => 0 ≤ v.toInt
  | float x => x.isPlain
  | _ => true

/-- A token for the terminal, nowhere in particular. -/
def token : Terminal → Token
  | ident n => ⟨.ident, n, {}⟩
  | string text => ⟨.string, text, {}⟩
  | int v => ⟨.int, Text.integer v.toInt, {}⟩
  | float x => ⟨.float, x.numeral, {}⟩
  | mark k => ⟨k, k.symbol, {}⟩

theorem readInt64_integer {v : Int64} (h : 0 ≤ v.toInt) : Numeral.readInt64 (Text.integer v.toInt) = some v := by
  obtain ⟨n, hn⟩ := Int.eq_ofNat_of_zero_le h
  have hlt : n < 0x8000000000000000 := by
    have := v.toInt_lt
    omega
  have hv : Int64.ofNat n = v := by
    rw [← Int64.ofInt_eq_ofNat, ← Int64.ofInt_toInt v, hn]
  rw [hn]
  change Numeral.readInt64 (Text.decimal n) = some v
  rw [Numeral.readInt64_decimal hlt, hv]

theorem terminal?_token {x : Terminal} (hr : x.inRange = true) (hm : ∀ k, x = mark k → k.isMark = true) :
    x.token.terminal? = some x := by
  cases x with
  | int v =>
    change (Numeral.readInt64 (Text.integer v.toInt)).map Terminal.int = _
    rw [readInt64_integer (of_decide_eq_true hr), Option.map_some]
  | float x =>
    change (Numeral.readBinary64 x.numeral).map Terminal.float = _
    rw [Binary64.readBinary64_numeral (Binary64.word_lt_of_isPlain hr), Option.map_some]
  | mark k => exact Token.terminal?_mark rfl (hm k rfl)
  | _ => rfl

end Terminal

def Program.tokens (p : Program) : List Token := p.yield.map Terminal.token

theorem Program.spells_tokens {p : Program} (hp : p.proper = true) (hr : ∀ x ∈ p.yield, x.inRange = true) :
    Spells p.tokens p.yield := by
  rw [spells_iff, Program.tokens, List.map_map]
  refine List.map_congr_left fun x hx => Terminal.terminal?_token (hr x hx) fun k hk => ?_
  exact Stmt.isMark_of_mem_all p.body hp (hk ▸ hx)

theorem Program.kind_ne_eof {p : Program} (hp : p.proper = true) {ts : List Token} (hy : Spells ts p.yield) :
    ∀ t ∈ ts, t.kind ≠ .eof := by
  intro t ht hk
  have hmem : t.terminal? ∈ p.yield.map some := spells_iff.mp hy ▸ List.mem_map_of_mem ht
  obtain ⟨x, hx, heq⟩ := List.mem_map.mp hmem
  have hmark : t.terminal? = some (.mark .eof) := by rw [Token.terminal?, hk]
  cases Option.some.inj (heq.trans hmark)
  exact absurd (Stmt.isMark_of_mem_all p.body hp hx) (by decide)

/-- A program of the grammar whose numbers have numerals is spelled by tokens, and any tokens that spell it are, up
to an end, parsed without errors as that program, places apart. -/
theorem parse_complete (p : Program) (hp : p.proper = true) (hr : ∀ x ∈ p.yield, x.inRange = true) :
    Spells p.tokens p.yield ∧ ∀ (ts : List Token) (ending : Token) (rest : List Token), Spells ts p.yield →
      ending.kind = .eof → (parse (ts ++ ending :: rest)).errors = [] ∧
        (parse (ts ++ ending :: rest)).program.bare = p.bare := by
  refine ⟨p.spells_tokens hp hr, fun ts ending rest hy he => ?_⟩
  have hstream : (TokenStream.ofTokens (ts ++ ending :: rest)).rest = ts := by
    have hne : ∀ t ∈ ts, (t.kind != .eof) = true := fun t ht => bne_iff_ne.mpr (p.kind_ne_eof hp hy t ht)
    have hend : (ending.kind != .eof) = false := by rw [he]; rfl
    change (ts ++ ending :: rest).takeWhile (·.kind != .eof) = ts
    rw [List.takeWhile_append_of_pos hne, List.takeWhile_cons, hend]
    simp
  obtain ⟨hbody, herrors⟩ := TokenStream.declarations_gives (TokenStream.stmts_read p.body hp) hp []
    (s := .ofTokens (ts ++ ending :: rest)) (hstream.symm ▸ hy)
  refine ⟨congrArg Array.toList herrors, ?_⟩
  unfold Program.bare
  rw [TokenStream.bareAll_eq_map, TokenStream.bareAll_eq_map]
  exact congrArg (Program.mk · {}) hbody

/-- `fn f(a, b)`, its body an `if` with the condition `a < 9223372036854775807`, in a block of its own another `if`
without an `else`, and behind `else` the loop `while (!b) b = a = -(0.1 + b) * a;`. -/
def nested : Program :=
  let a : Bytes := [97]
  let b : Bytes := [98]
  let sum : Expr := .binary {} .plus (.literal {} (.float ⟨0x3FB999999999999A⟩)) (.name {} b)
  let product : Expr := .binary {} .star (.unary {} .minus (.group {} sum)) (.name {} a)
  ⟨[.func {} [102] {} [⟨a, {}⟩, ⟨b, {}⟩]
    [.ifElse {} (.binary {} .less (.name {} a) (.literal {} (.int 9223372036854775807)))
      (.block {} [.ifThen {} (.name {} b) (.ret {} none)])
      (.while {} (.unary {} .bang (.name {} b)) (.expr {} (.assign {} b (.assign {} a product))))]], {}⟩

theorem nested_complete : nested.proper = true ∧ (∀ x ∈ nested.yield, x.inRange = true) ∧
    Spells nested.tokens nested.yield ∧ (parse (nested.tokens ++ [⟨.eof, [], {}⟩])).errors = [] ∧
    (parse (nested.tokens ++ [⟨.eof, [], {}⟩])).program.bare = nested.bare := by
  have hp : nested.proper = true := by decide +kernel
  have hr : ∀ x ∈ nested.yield, x.inRange = true := by decide +kernel
  obtain ⟨hy, h⟩ := parse_complete nested hp hr
  exact ⟨hp, hr, hy, h nested.tokens ⟨.eof, [], {}⟩ [] hy rfl⟩

end RegCode
