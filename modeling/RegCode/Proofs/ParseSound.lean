import RegCode.Proofs.Grammar

/-!
# Parsing is sound

Where no error is reported, the tokens that were read spell the tree that was made of them, and the tree is one of
the grammar. Errors are never taken back, so a reading that ends without one had none at its start, and a phrase
that is given up leaves one behind.
-/

namespace RegCode

namespace Reading

/-- A reading that begins with `o`: if it is done without errors, there were none before, and `Q` holds of the
value, the tokens read and the stream behind them; if it fails, there are errors. -/
def Meets {α : Type} {start : TokenStream} (o : TokenStream) (Q : α → List Token → TokenStream → Prop) :
    Reading α start → Prop
  | .done a next _ => next.errors = #[] → o.errors = #[] ∧ ∃ used, o.rest = used ++ next.rest ∧ Q a used next
  | .fail _ next _ _ => next.errors ≠ #[]

section
variable {α β : Type} {start o : TokenStream} {r : Reading α start} {Q Q₁ : α → List Token → TokenStream → Prop}
  {Q₂ : β → List Token → TokenStream → Prop}

theorem Meets.mono (h : r.Meets o Q) (hQ : ∀ a used next, Q a used next → Q₁ a used next) : r.Meets o Q₁ := by
  cases r with
  | done a next lt =>
    intro hn
    obtain ⟨ho, used, hu, hq⟩ := h hn
    exact ⟨ho, used, hu, hQ a used next hq⟩
  | fail => exact h

theorem Meets.after {s : TokenStream} {r : Reading α s} (h : r.Meets o Q) (lt : s.left < start.left) :
    (r.after lt).Meets o Q := by
  cases r <;> exact h

theorem Meets.follow {f : α → (s : TokenStream) → s.left < start.left → Reading β start} (h : r.Meets o Q)
    (hf : ∀ a s lt, (f a s lt).Meets s fun b used next => ∀ used', Q a used' s → Q₂ b (used' ++ used) next) :
    (r.follow f).Meets o Q₂ := by
  cases r with
  | fail => exact h
  | done a s lt =>
    have hf := hf a s lt
    change (f a s lt).Meets o Q₂
    revert hf
    cases f a s lt with
    | fail => exact id
    | done b next lt' =>
      intro hf hn
      obtain ⟨hs, used, hu, hq⟩ := hf hn
      obtain ⟨ho, used', hu', hq'⟩ := h hs
      refine ⟨ho, used' ++ used, ?_, hq used' hq'⟩
      rw [hu', hu, List.append_assoc]

theorem Meets.bind {f : α → (s : TokenStream) → s.left < start.left → Reading β s} (h : r.Meets o Q)
    (hf : ∀ a s lt, (f a s lt).Meets s fun b used next => ∀ used', Q a used' s → Q₂ b (used' ++ used) next) :
    (r.bind f).Meets o Q₂ :=
  h.follow fun a s lt => (hf a s lt).after lt

theorem Meets.map {f : α → Token → β} (h : r.Meets o Q)
    (hf : ∀ a used next, Q a used next → Q₂ (f a next.prev) used next) : (r.map f).Meets o Q₂ := by
  cases r with
  | done a next lt =>
    intro hn
    obtain ⟨ho, used, hu, hq⟩ := h hn
    exact ⟨ho, used, hu, hf a used next hq⟩
  | fail => exact h

theorem Meets.behind {s : TokenStream} (h : r.Meets s Q₁)
    (hs : s.errors = #[] → o.errors = #[] ∧ ∃ used, o.rest = used ++ s.rest ∧
      ∀ a used' next, Q₁ a used' next → Q a (used ++ used') next) : r.Meets o Q := by
  cases r with
  | done a next lt =>
    intro hn
    obtain ⟨he, used', hu', hq'⟩ := h hn
    obtain ⟨ho, used, hu, hQ⟩ := hs he
    refine ⟨ho, used ++ used', ?_, hQ a used' next hq'⟩
    rw [hu, hu', List.append_assoc]
  | fail => exact h

theorem Meets.past {t : Token} {s : TokenStream} (hr : o.rest = t :: s.rest) (he : s.errors = o.errors)
    (h : r.Meets s fun a used next => Q a (t :: used) next) : r.Meets o Q :=
  h.behind fun hn => ⟨he ▸ hn, [t], hr, fun _ _ _ hq => hq⟩

end

end Reading

namespace TokenStream

theorem errors_report_ne (s : TokenStream) (t : Token) (f : SyntaxFault) : (s.report t f).errors ≠ #[] := by
  simp [report]

theorem reject_meets {α : Type} {s : TokenStream} {Q : α → List Token → TokenStream → Prop} (f : SyntaxFault) :
    (s.reject f : Reading α s).Meets s Q :=
  errors_report_ne s _ _

theorem rest_advance {s : TokenStream} {t : Token} {rest : List Token} (h : s.rest = t :: rest) :
    s.rest = t :: s.advance.rest := by
  rw [advance, h]

theorem errors_advance (s : TokenStream) : s.advance.errors = s.errors := by
  unfold advance
  split <;> rfl

theorem expect_meets (s : TokenStream) (k : Kind) (f : SyntaxFault) :
    (s.expect k f).Meets s fun t used _ => t.kind = k ∧ used = [t] := by
  unfold expect
  split
  · exact reject_meets f
  · rename_i t rest h
    split
    · rename_i hk
      intro hn
      rw [errors_advance] at hn
      exact ⟨hn, [t], rest_advance h, hk, rfl⟩
    · exact reject_meets f

theorem skip?_some {s next : TokenStream} {k : Kind} {lt : next.left < s.left} (h : s.skip? k = some ⟨next, lt⟩) :
    ∃ t, t.kind = k ∧ s.rest = t :: next.rest ∧ next.errors = s.errors := by
  unfold skip? at h
  split at h
  · cases h
  · rename_i t rest hr
    split at h
    · rename_i hk
      cases h
      exact ⟨t, hk, rest_advance hr, errors_advance s⟩
    · cases h

theorem skip?_none {s : TokenStream} {k : Kind} (h : s.skip? k = none) {t : Token} {rest : List Token}
    (hr : s.rest = t :: rest) : t.kind ≠ k := by
  unfold skip? at h
  split at h
  · rename_i hr'
    rw [hr'] at hr
    cases hr
  · rename_i t' rest' hr'
    rw [hr'] at hr
    cases hr
    split at h
    · cases h
    · assumption

/-! ## Expressions -/

/-- How tightly the first token binds as an operator. -/
def ahead : List Token → Nat
  | [] => 0
  | t :: _ => t.kind.strength

theorem ahead_le_sign (tail : List Token) : ahead tail ≤ Kind.signStrength := by
  cases tail with
  | nil => exact Nat.zero_le _
  | cons t _ => exact Nat.le_of_lt t.kind.strength_lt

/-- The tokens spell an expression whose outermost operator binds tighter than `least`, and no such operator
follows. -/
structure ReadsExpr (least : Nat) (e : Expr) (used : List Token) (next : TokenStream) : Prop where
  spells : Spells used e.yield
  proper : e.proper = true
  strong : least < e.strength ∨ Kind.signStrength ≤ e.strength
  stops : ahead next.rest ≤ least

structure ReadsOperand (e : Expr) (used : List Token) : Prop where
  spells : Spells used e.yield
  proper : e.proper = true
  strong : Kind.signStrength ≤ e.strength

/-- Reading an expression from any stream with fewer tokens than `s` is sound. -/
def ExprSoundBelow (s : TokenStream) : Prop :=
  ∀ s' : TokenStream, s'.left < s.left → ∀ least, Kind.weakest ≤ least → (expr least s').Meets s' (ReadsExpr least)

theorem number_meets {s start next : TokenStream} {t : Token} {v : Option Literal} (f : SyntaxFault)
    (lt : next.left < start.left) (hr : s.rest = t :: next.rest) (he : next.errors = s.errors)
    (hv : ∀ x, v = some x → ReadsOperand (.literal (.ofToken t) x) [t]) :
    (number t v f next lt : Reading Expr start).Meets s fun e used _ => ReadsOperand e used := by
  cases v with
  | some x =>
    intro hn
    exact ⟨he ▸ hn, [t], hr, hv x rfl⟩
  | none => exact errors_report_ne next t f

theorem sign_meets {s : TokenStream} (ih : ExprSoundBelow s) {t : Token} {rest : List Token}
    (h : s.rest = t :: rest) (hk : t.kind.signs = true) :
    (Reading.after ((expr Kind.signStrength s.advance).map fun e _ => .signNode t e)
      (left_advance_lt h) : Reading Expr s).Meets s fun e used _ => ReadsOperand e used := by
  have hmark : t.kind.isMark = true := by cases hs : t.kind <;> simp_all [Kind.signs, Kind.isMark]
  have hx := ih s.advance (left_advance_lt h) Kind.signStrength (by decide)
  refine .after (.past (rest_advance h) s.errors_advance (hx.map fun e used next hq => ?_)) _
  refine ⟨?_, ?_, Nat.le_refl _⟩
  · exact spells_cons.mpr ⟨Token.terminal?_mark rfl hmark, hq.spells⟩
  · have hs : Kind.signStrength ≤ e.strength := hq.strong.elim Nat.le_of_lt id
    simp [Expr.signNode, Expr.proper_unary, hk, hs, hq.proper]

theorem operand_meets {s : TokenStream} (ih : ExprSoundBelow s) :
    (operand s).Meets s fun e used _ => ReadsOperand e used := by
  rw [operand]
  split
  · exact reject_meets _
  · rename_i t rest h
    have hr := rest_advance h
    have he := s.errors_advance
    split
    · rename_i hk
      refine number_meets _ _ hr he fun x hx => ?_
      obtain ⟨v, hv, rfl⟩ := Option.map_eq_some_iff.mp hx
      exact ⟨by simp [Token.terminal?, hk, hv, Expr.yield, Literal.yield], rfl, Nat.le_succ _⟩
    · rename_i hk
      refine number_meets _ _ hr he fun x hx => ?_
      obtain ⟨v, hv, rfl⟩ := Option.map_eq_some_iff.mp hx
      exact ⟨by simp [Token.terminal?, hk, hv, Expr.yield, Literal.yield], rfl, Nat.le_succ _⟩
    · rename_i hk
      intro hn
      refine ⟨he ▸ hn, [t], hr, ?_, rfl, Nat.le_succ _⟩
      simp [Token.terminal?, hk, Expr.yield, Literal.yield]
    · rename_i hk
      intro hn
      refine ⟨he ▸ hn, [t], hr, ?_, rfl, Nat.le_succ _⟩
      simp [Token.terminal?, hk, Expr.yield]
    · rename_i hk
      have hx := ih s.advance (left_advance_lt h) Kind.weakest (Nat.le_refl _)
      refine .after (.past hr he (hx.bind fun inner s₁ lt₁ => ?_)) _
      refine (expect_meets s₁ .rparen .unclosedGroup).map ?_
      rintro close _ next ⟨hc, rfl⟩ used hq
      refine ⟨?_, hq.proper, Nat.le_succ _⟩
      refine spells_cons.mpr ⟨Token.terminal?_mark hk rfl, hq.spells.append ?_⟩
      exact spells_singleton.mpr (Token.terminal?_mark hc rfl)
    · rename_i hk
      exact sign_meets ih h (by rw [hk]; rfl)
    · rename_i hk
      exact sign_meets ih h (by rw [hk]; rfl)
    · exact reject_meets _

theorem target?_eq_some {e : Expr} {n : Bytes} (h : e.target? = some n) : ∃ p, e = .name p n := by
  cases e with
  | name p m =>
    cases h
    exact ⟨p, rfl⟩
  | _ => cases h

theorem joined_clean {left right : Expr} {op : Token} {s : TokenStream}
    (he : (joined left op right s).2.errors = #[]) :
    (joined left op right s).2 = s ∧ (op.kind = .assign → ∃ p n, left = .name p n) := by
  unfold joined at *
  by_cases ha : op.kind = .assign
  · rw [if_pos ha] at he ⊢
    cases ht : left.target? with
    | none =>
      simp only [Expr.assignNode?, ht, Option.map_none] at he
      exact absurd he (errors_report_ne s op _)
    | some n =>
      obtain ⟨p, hp⟩ := target?_eq_some ht
      simp only [Expr.assignNode?, ht, Option.map_some]
      exact ⟨trivial, fun _ => ⟨p, n, hp⟩⟩
  · rw [if_neg ha]
    exact ⟨rfl, fun h => absurd h ha⟩

/-- What holds of the left side in front of each operator: what follows does not belong into it. -/
structure LeftRead (least : Nat) (left : Expr) (s : TokenStream) : Prop where
  proper : left.proper = true
  strong : least < left.strength ∨ Kind.signStrength ≤ left.strength
  apart : ahead s.rest ≤ left.strength

structure ReadsOnto (least : Nat) (left e : Expr) (used : List Token) (next : TokenStream) : Prop where
  spells : ∃ xs, e.yield = left.yield ++ xs ∧ Spells used xs
  proper : e.proper = true
  strong : least < e.strength ∨ Kind.signStrength ≤ e.strength
  stops : ahead next.rest ≤ least

theorem LeftRead.stop {least : Nat} {left : Expr} {s : TokenStream} (h : LeftRead least left s)
    (hs : ahead s.rest ≤ least) : ReadsOnto least left left [] s :=
  ⟨⟨[], (List.append_nil _).symm, spells_nil⟩, h.proper, h.strong, hs⟩

/-- An operator and its right side join the left side to a new one. -/
theorem LeftRead.join {least : Nat} {left right : Expr} {s next : TokenStream} {op : Token} {rest used : List Token}
    (h : LeftRead least left s) (hs : s.rest = op :: rest) (hleast : Kind.weakest ≤ least)
    (hop : least < op.kind.strength) (hr : ReadsExpr op.kind.rightStrength right used next)
    (ha : op.kind = .assign → ∃ p n, left = .name p n) :
    LeftRead least (joined left op right next).1 next ∧
      (joined left op right next).1.yield = left.yield ++ .mark op.kind :: right.yield := by
  have hstops := hr.stops
  unfold joined
  by_cases hk : op.kind = .assign
  · obtain ⟨p, n, rfl⟩ := ha hk
    rw [if_pos hk]
    rw [hk] at hop hstops ⊢
    exact ⟨⟨hr.proper, .inl hop,
      Nat.le_trans hstops (show Kind.assign.rightStrength ≤ Kind.assign.strength by decide)⟩, rfl⟩
  · have hahead := h.apart
    simp only [TokenStream.ahead, hs] at hahead
    have hstrong := hr.strong
    rw [Kind.rightStrength_eq hk] at hstrong hstops
    have hlt : op.kind.strength < right.strength := by
      have := op.kind.strength_lt
      omega
    rw [if_neg hk]
    refine ⟨⟨?_, .inl hop, hstops⟩, rfl⟩
    simp [Expr.operatorNode, Expr.proper_binary, Kind.joins_of_strength (Nat.lt_of_le_of_lt hleast hop) hk, hahead,
      hlt, h.proper, hr.proper]

theorem operators_meets {start : TokenStream} (ih : ExprSoundBelow start) {least : Nat}
    (hleast : Kind.weakest ≤ least) {left : Expr} {s : TokenStream} (lt : s.left < start.left)
    (hl : s.errors = #[] → LeftRead least left s) :
    (operators start least left s lt).Meets s (ReadsOnto least left) := by
  induction hn : s.left using Nat.strongRecOn generalizing left s with
  | ind n ihn =>
    subst hn
    rw [operators]
    split
    · rename_i h
      intro he
      exact ⟨he, [], rfl, (hl he).stop (by simp [TokenStream.ahead, h])⟩
    · rename_i op rest h
      split
      · rename_i hop
        have hadv := left_advance_lt h
        have hx := ih s.advance (by omega) op.kind.rightStrength op.kind.weakest_le_rightStrength
        split
        · rename_i right next lt' hE
          rw [hE] at hx
          have hjl := left_joined left op right next
          -- without an error behind the operator there was none in front of it
          have hstep : (joined left op right next).2.errors = #[] → s.errors = #[] ∧
              LeftRead least (joined left op right next).1 (joined left op right next).2 ∧
              ∃ used, s.rest = used ++ (joined left op right next).2.rest ∧
                ∃ xs, (joined left op right next).1.yield = left.yield ++ xs ∧ Spells used xs := by
            intro he
            obtain ⟨hj, ha⟩ := joined_clean he
            rw [hj] at he ⊢
            obtain ⟨he', used, hu, hr⟩ := hx he
            rw [errors_advance] at he'
            obtain ⟨hl', hy⟩ := (hl he').join h hleast hop hr ha
            refine ⟨he', hl', op :: used, ?_, _, hy, ?_⟩
            · rw [rest_advance h, hu, List.cons_append]
            · exact spells_cons.mpr ⟨Token.terminal?_mark rfl
                (Kind.isMark_of_strength (Nat.lt_of_le_of_lt hleast hop)), hr.spells⟩
          have hrec := ihn (joined left op right next).2.left (by omega) (by omega)
            (fun he => (hstep he).2.1) rfl
          refine hrec.behind fun he => ?_
          obtain ⟨he', -, used, hu, xs, hy, hxs⟩ := hstep he
          refine ⟨he', used, hu, ?_⟩
          rintro e used' next' ⟨⟨ys, hy', hys⟩, hp, hs, hstop⟩
          refine ⟨⟨xs ++ ys, ?_, hxs.append hys⟩, hp, hs, hstop⟩
          rw [hy', hy, List.append_assoc]
        · rename_i f next moved le hE
          rw [hE] at hx
          exact hx
      · rename_i hop
        intro he
        refine ⟨he, [], rfl, (hl he).stop ?_⟩
        simp only [TokenStream.ahead, h]
        omega

theorem expr_meets (s : TokenStream) {least : Nat} (hleast : Kind.weakest ≤ least) :
    (expr least s).Meets s (ReadsExpr least) := by
  induction hn : s.left using Nat.strongRecOn generalizing s least with
  | ind n ihn =>
    subst hn
    have ih : ExprSoundBelow s := fun s' lt least' hleast' => ihn s'.left lt s' hleast' rfl
    have ho := operand_meets ih
    rw [expr]
    split
    · rename_i e next lt hE
      rw [hE] at ho
      refine (operators_meets ih hleast lt fun he => ?_).behind fun he => ?_
      · obtain ⟨-, used, -, hq⟩ := ho he
        exact ⟨hq.proper, .inr hq.strong, Nat.le_trans (ahead_le_sign _) hq.strong⟩
      · obtain ⟨he', used, hu, hq⟩ := ho he
        refine ⟨he', used, hu, ?_⟩
        rintro e' used' next' ⟨⟨xs, hy, hxs⟩, hp, hs, hstop⟩
        exact ⟨hy ▸ hq.spells.append hxs, hp, hs, hstop⟩
    · rename_i f next moved le hE
      rw [hE] at ho
      exact ho

/-! ## Statements -/

theorem expect_mark_meets (s : TokenStream) {k : Kind} (f : SyntaxFault) (hk : k.isMark = true) :
    (s.expect k f).Meets s fun _ used _ => Spells used [.mark k] := by
  refine (expect_meets s k f).mono ?_
  rintro t _ _ ⟨ht, rfl⟩
  exact spells_singleton.mpr (Token.terminal?_mark ht hk)

theorem expect_ident_meets (s : TokenStream) (f : SyntaxFault) :
    (s.expect .ident f).Meets s fun t used _ => Spells used [.ident t.literal] := by
  refine (expect_meets s .ident f).mono ?_
  rintro t _ _ ⟨ht, rfl⟩
  simp [Token.terminal?, ht]

theorem finish_meets (first : Token) (f : SyntaxFault) (node : Place → Stmt) (s : TokenStream) :
    (finish first f node s).Meets s fun st used _ => (∃ p, st = node p) ∧ Spells used [.mark .semicolon] :=
  (expect_mark_meets s f rfl).map fun _ _ _ h => ⟨⟨_, rfl⟩, h⟩

def NoElse (tail : List Token) : Prop := ∀ t rest, tail = t :: rest → t.kind ≠ .kwElse

/-- The tokens behind one of kind `k` spell a statement together with it. -/
structure ReadsBehind (k : Kind) (st : Stmt) (used : List Token) (next : TokenStream) : Prop where
  spells : ∃ xs, st.yield = .mark k :: xs ∧ Spells used xs
  proper : st.proper = true
  closed : st.endsOpen = true → NoElse next.rest

theorem varDecl_meets (first : Token) (s : TokenStream) : (varDecl first s).Meets s (ReadsBehind .kwVar) := by
  unfold varDecl
  refine (expect_ident_meets s _).bind fun name s₁ lt₁ => ?_
  dsimp only
  split
  · rename_i next lt hskip
    obtain ⟨t, ht, hr, he⟩ := skip?_some hskip
    refine .after (.past hr he ((expr_meets next (Nat.le_refl _)).bind fun e s₂ lt₂ => ?_)) _
    refine (finish_meets ..).mono ?_
    rintro _ used _ ⟨⟨p, rfl⟩, hsemi⟩ used₂ hx used₁ hname
    refine ⟨⟨_, rfl, ?_⟩, by simp [Stmt.proper, hx.proper], Stmt.of_not_endsOpen rfl⟩
    refine hname.append (spells_cons.mpr ⟨Token.terminal?_mark ht rfl, ?_⟩)
    exact hx.spells.append hsemi
  · refine (finish_meets ..).mono ?_
    rintro _ used _ ⟨⟨p, rfl⟩, hsemi⟩ used₁ hname
    exact ⟨⟨_, rfl, hname.append hsemi⟩, rfl, Stmt.of_not_endsOpen rfl⟩

theorem value_meets (first : Token) (f : SyntaxFault) (node : Expr → Place → Stmt) (s : TokenStream) :
    ((expr Kind.weakest s).bind fun e s _ => finish first f (node e) s).Meets s fun st used _ =>
      ∃ e p, st = node e p ∧ e.proper = true ∧ Spells used (e.yield ++ [.mark .semicolon]) := by
  refine (expr_meets s (Nat.le_refl _)).bind fun e s₁ lt => (finish_meets ..).mono ?_
  rintro _ used _ ⟨⟨p, rfl⟩, hsemi⟩ used₁ hx
  exact ⟨e, p, rfl, hx.proper, hx.spells.append hsemi⟩

theorem printStmt_meets (first : Token) (s : TokenStream) :
    (printStmt first s).Meets s fun st used next => ReadsBehind .kwPrint st used next ∧ st.declares = false := by
  refine (value_meets first _ (fun e p => .print p e) s).mono ?_
  rintro _ used _ ⟨e, p, rfl, hp, hu⟩
  exact ⟨⟨⟨_, rfl, hu⟩, hp, Stmt.of_not_endsOpen rfl⟩, rfl⟩

theorem returnStmt_meets (first : Token) (s : TokenStream) :
    (returnStmt first s).Meets s fun st used next => ReadsBehind .kwReturn st used next ∧ st.declares = false := by
  unfold returnStmt
  split
  · refine (finish_meets ..).mono ?_
    rintro _ used _ ⟨⟨p, rfl⟩, hsemi⟩
    exact ⟨⟨⟨_, rfl, hsemi⟩, rfl, Stmt.of_not_endsOpen rfl⟩, rfl⟩
  · refine (value_meets first _ (fun e p => .ret p (some e)) s).mono ?_
    rintro _ used _ ⟨e, p, rfl, hp, hu⟩
    exact ⟨⟨⟨_, rfl, hu⟩, by simp [Stmt.proper, hp], Stmt.of_not_endsOpen rfl⟩, rfl⟩

theorem condition_meets (opening closing : SyntaxFault) (s : TokenStream) :
    (condition opening closing s).Meets s fun e used _ => e.proper = true ∧ Spells used (Stmt.yieldCond e) := by
  refine (expect_mark_meets s opening rfl).bind fun _ s₁ lt₁ => ?_
  refine (expr_meets s₁ (Nat.le_refl _)).bind fun e s₂ lt₂ => ?_
  refine (expect_mark_meets s₂ closing rfl).map fun _ used _ hclose used₂ hx used₁ hopen => ⟨hx.proper, ?_⟩
  exact hopen.append (hx.spells.append hclose)

/-- Parameters behind those in `acc`, the closing bracket included. -/
def ReadsParams (acc ps : List Param) (used : List Token) : Prop :=
  ∃ p new, ps = acc.reverse ++ p :: new ∧ Spells used (Stmt.yieldParams (p :: new) ++ [.mark .rparen]) ∧
    ps.length ≤ maxParams

theorem params_clean {s : TokenStream} {acc : List Param}
    (he : (if (acc.drop (maxParams - 1)).isEmpty then s else s.report s.current .tooManyParameters).errors = #[]) :
    (if (acc.drop (maxParams - 1)).isEmpty then s else s.report s.current .tooManyParameters) = s ∧
      acc.length < maxParams := by
  by_cases h : (acc.drop (maxParams - 1)).isEmpty = true
  · rw [if_pos h]
    rw [List.isEmpty_iff, List.drop_eq_nil_iff] at h
    exact ⟨rfl, Nat.lt_succ_of_le h⟩
  · rw [if_neg h] at he
    exact absurd he (errors_report_ne s _ _)

theorem parameters_meets (start : TokenStream) (acc : List Param) (s : TokenStream) (lt : s.left < start.left) :
    (parameters start acc s lt).Meets s fun ps used _ => ReadsParams acc ps used := by
  induction hn : s.left using Nat.strongRecOn generalizing acc s with
  | ind n ihn =>
    subst hn
    rw [parameters]
    have hx := expect_ident_meets
      (if (acc.drop (maxParams - 1)).isEmpty then s else s.report s.current .tooManyParameters) .noParameterName
    split
    · rename_i f next moved le hE
      rw [hE] at hx
      exact hx
    · rename_i t next lt' hE
      rw [hE] at hx
      -- one parameter too many would have left an error
      have hname : next.errors = #[] → s.errors = #[] ∧ acc.length < maxParams ∧
          ∃ used, s.rest = used ++ next.rest ∧ Spells used [.ident t.literal] := by
        intro hn
        obtain ⟨he, used, hu, ht⟩ := hx hn
        obtain ⟨hs, hlt⟩ := params_clean he
        rw [hs] at he hu
        exact ⟨he, hlt, used, hu, ht⟩
      split
      · rename_i next' lt₂ hskip
        obtain ⟨c, hc, hr, he⟩ := skip?_some hskip
        have hleft : next.left < s.left := by
          refine Nat.lt_of_lt_of_eq lt' ?_
          split <;> rfl
        have hrec := ihn next'.left (by omega) (⟨t.literal, t.pos⟩ :: acc) next' (by omega) rfl
        refine hrec.behind fun hn => ?_
        obtain ⟨hs, -, used, hu, ht⟩ := hname (he ▸ hn)
        refine ⟨hs, used ++ [c], ?_, ?_⟩
        · rw [hu, hr, List.append_assoc, List.singleton_append]
        · rintro ps used' _ ⟨p, new, rfl, hu', hle⟩
          refine ⟨⟨t.literal, t.pos⟩, p :: new, by simp, ?_, hle⟩
          rw [List.append_assoc]
          exact ht.append (spells_cons.mpr ⟨Token.terminal?_mark hc rfl, hu'⟩)
      · have hclose : ((next.expect .rparen .unclosedParameters).map fun _ _ =>
            (⟨t.literal, t.pos⟩ :: acc).reverse).Meets next fun (ps : List Param) used _ =>
            ps = (⟨t.literal, t.pos⟩ :: acc).reverse ∧ Spells used [.mark .rparen] :=
          (expect_mark_meets next _ rfl).map fun _ _ _ h => ⟨rfl, h⟩
        refine .after (hclose.behind fun hn => ?_) _
        obtain ⟨hs, hlt, used, hu, ht⟩ := hname hn
        refine ⟨hs, used, hu, ?_⟩
        rintro _ used' _ ⟨rfl, hu'⟩
        exact ⟨⟨t.literal, t.pos⟩, [], by simp, ht.append hu', by rw [List.length_reverse]; exact hlt⟩

theorem parameterList_meets (s : TokenStream) : (parameterList s).Meets s fun ps used _ =>
    Spells used (.mark .lparen :: Stmt.yieldParams ps ++ [.mark .rparen]) ∧ ps.length ≤ maxParams := by
  refine (expect_mark_meets s _ rfl).follow fun _ s₁ lt₁ => ?_
  split
  · rename_i next lt hskip
    obtain ⟨t, ht, hr, he⟩ := skip?_some hskip
    refine .after ?_ _
    intro hn
    refine ⟨he ▸ hn, [t], hr, fun used hopen => ⟨?_, Nat.zero_le _⟩⟩
    exact hopen.append (spells_singleton.mpr (Token.terminal?_mark ht rfl))
  · refine (parameters_meets s [] s₁ lt₁).mono ?_
    rintro ps used _ ⟨p, new, rfl, hu, hle⟩ used₁ hopen
    exact ⟨hopen.append hu, hle⟩

structure ReadsStmt (st : Stmt) (used : List Token) (next : TokenStream) : Prop where
  spells : Spells used st.yield
  proper : st.proper = true
  closed : st.endsOpen = true → NoElse next.rest

theorem ReadsBehind.with_first {t : Token} {k : Kind} {st : Stmt} {used : List Token} {next : TokenStream}
    (h : ReadsBehind k st used next) (ht : t.kind = k) (hk : k.isMark = true) : ReadsStmt st (t :: used) next := by
  obtain ⟨xs, hy, hxs⟩ := h.spells
  refine ⟨?_, h.proper, h.closed⟩
  rw [hy]
  exact spells_cons.mpr ⟨Token.terminal?_mark ht hk, hxs⟩

theorem exprStmt_meets (s : TokenStream) :
    (exprStmt s).Meets s fun st used next => ReadsStmt st used next ∧ st.declares = false := by
  refine (value_meets s.current _ (fun e p => .expr p e) s).mono ?_
  rintro _ used _ ⟨e, p, rfl, hp, hu⟩
  exact ⟨⟨hu, hp, Stmt.of_not_endsOpen rfl⟩, rfl⟩

def StatementSound (s : TokenStream) : Prop :=
  (statement s).Meets s fun st used next => ReadsStmt st used next ∧ st.declares = false

/-- Declarations behind those in `acc`, the closing brace included. -/
def ReadsBlock (acc l : List Stmt) (used : List Token) : Prop :=
  ∃ new, l = acc.reverse ++ new ∧ Stmt.properAll new = true ∧ Spells used (Stmt.yieldAll new ++ [.mark .rbrace])

def BlockSound (s : TokenStream) : Prop :=
  ∀ (start : TokenStream) (acc : List Stmt) (lt : s.left < start.left),
    (block start acc s lt).Meets s fun l used _ => ReadsBlock acc l used

theorem ifStmt_meets (first : Token) (s : TokenStream)
    (ih : ∀ s' : TokenStream, s'.left < s.left → StatementSound s') :
    (ifStmt first s).Meets s fun st used next => ReadsBehind .kwIf st used next ∧ st.declares = false := by
  rw [ifStmt]
  refine (condition_meets ..).bind fun cond s₁ lt₁ => (ih s₁ lt₁).follow fun yes s₂ lt₂ => ?_
  split
  · rename_i next lt hskip
    obtain ⟨t, ht, hr, he⟩ := skip?_some hskip
    have hno := ih next (by omega)
    refine .after (.past hr he (hno.map ?_)) _
    rintro no used next' ⟨hno, hnd⟩ used₂ ⟨hyes, hyd⟩ used₁ ⟨hc, hcond⟩
    -- an open branch would have taken the `else`
    have hopen : yes.endsOpen = false := by
      cases ho : yes.endsOpen with
      | false => rfl
      | true => exact absurd ht (hyes.closed ho t next.rest hr)
    refine ⟨⟨⟨_, rfl, ?_⟩, ?_, hno.closed⟩, rfl⟩
    · rw [← List.append_assoc]
      exact (hcond.append hyes.spells).append (spells_cons.mpr ⟨Token.terminal?_mark ht rfl, hno.spells⟩)
    · simp [Stmt.proper, hc, hyes.proper, hno.proper, hyd, hnd, hopen]
  · rename_i hskip
    intro hn
    refine ⟨hn, [], rfl, ?_⟩
    rintro used₂ ⟨hyes, hyd⟩ used₁ ⟨hc, hcond⟩
    refine ⟨⟨⟨_, rfl, ?_⟩, ?_, fun _ t rest hr => skip?_none hskip hr⟩, rfl⟩
    · rw [List.append_nil]
      exact hcond.append hyes.spells
    · simp [Stmt.proper, hc, hyes.proper, hyd]

theorem whileStmt_meets (first : Token) (s : TokenStream)
    (ih : ∀ s' : TokenStream, s'.left < s.left → StatementSound s') :
    (whileStmt first s).Meets s fun st used next => ReadsBehind .kwWhile st used next ∧ st.declares = false := by
  rw [whileStmt]
  refine (condition_meets ..).bind fun cond s₁ lt₁ => (ih s₁ lt₁).map ?_
  rintro body used next ⟨hbody, hd⟩ used₁ ⟨hc, hcond⟩
  refine ⟨⟨⟨_, rfl, hcond.append hbody.spells⟩, ?_, hbody.closed⟩, rfl⟩
  simp [Stmt.proper, hc, hbody.proper, hd]

theorem funcDecl_meets (first : Token) (s : TokenStream)
    (ih : ∀ s' : TokenStream, s'.left < s.left → BlockSound s') :
    (funcDecl first s).Meets s (ReadsBehind .kwFn) := by
  rw [funcDecl]
  refine (expect_ident_meets ..).bind fun name s₁ lt₁ => (parameterList_meets s₁).bind fun params s₂ lt₂ => ?_
  refine (expect_mark_meets s₂ _ rfl).follow fun _ s₃ lt₃ => (ih s₃ (by omega) s₂ [] lt₃).map ?_
  rintro body used next ⟨new, rfl, hp, hbody⟩ used₃ hopen used₂ ⟨hparams, hle⟩ used₁ hname
  refine ⟨⟨_, rfl, ?_⟩, ?_, Stmt.of_not_endsOpen rfl⟩
  · have := hname.append (hparams.append (hopen.append hbody))
    simpa using this
  · simp [Stmt.proper_func, hle, hp]

theorem statement_meets (s : TokenStream) (ih : ∀ s' : TokenStream, s'.left < s.left → StatementSound s')
    (ihB : ∀ s' : TokenStream, s'.left < s.left → BlockSound s') : StatementSound s := by
  unfold StatementSound
  rw [statement]
  split
  · exact exprStmt_meets s
  · rename_i t rest h
    have lt := left_advance_lt h
    have hr := rest_advance h
    have he := s.errors_advance
    split
    · rename_i hk
      refine .after (.past hr he ((ifStmt_meets t s.advance fun s' h' => ih s' (by omega)).mono ?_)) _
      rintro st used next ⟨hst, hd⟩
      exact ⟨hst.with_first hk rfl, hd⟩
    · rename_i hk
      refine .after (.past hr he ((whileStmt_meets t s.advance fun s' h' => ih s' (by omega)).mono ?_)) _
      rintro st used next ⟨hst, hd⟩
      exact ⟨hst.with_first hk rfl, hd⟩
    · rename_i hk
      refine .after (.past hr he ((returnStmt_meets t s.advance).mono ?_)) _
      rintro st used next ⟨hst, hd⟩
      exact ⟨hst.with_first hk rfl, hd⟩
    · rename_i hk
      refine .after (.past hr he ((printStmt_meets t s.advance).mono ?_)) _
      rintro st used next ⟨hst, hd⟩
      exact ⟨hst.with_first hk rfl, hd⟩
    · rename_i hk
      refine .past hr he ((ihB s.advance lt s [] lt).map ?_)
      rintro body used next ⟨new, rfl, hp, hbody⟩
      exact ⟨⟨spells_cons.mpr ⟨Token.terminal?_mark hk rfl, hbody⟩, hp, Stmt.of_not_endsOpen rfl⟩, rfl⟩
    · exact exprStmt_meets s

theorem errors_resume (s : TokenStream) : s.resume.errors = s.errors := by
  fun_induction resume s with
  | case1 => rfl
  | case2 => rfl
  | case3 s t rest _ _ ih => rw [ih, errors_advance]

theorem errors_recover (moved : Bool) (s : TokenStream) : (s.recover moved).errors = s.errors := by
  unfold recover
  split
  · exact errors_resume s
  · rw [errors_resume, errors_advance]

/-- What a declaration reads, before it is given up if that fails. -/
def attempt (s : TokenStream) (first : Token) (lt : s.advance.left < s.left) : Reading Stmt s :=
  match first.kind with
  | .kwFn => (funcDecl first s.advance).after lt
  | .kwVar => (varDecl first s.advance).after lt
  | _ => statement s

def DeclarationSound (s : TokenStream) : Prop :=
  ∀ (first : Token) (rest : List Token) (h : s.rest = first :: rest),
    (declaration s first rest h).1.2.errors = #[] → s.errors = #[] ∧
      ∃ used, s.rest = used ++ (declaration s first rest h).1.2.rest ∧
        ReadsStmt (declaration s first rest h).1.1 used (declaration s first rest h).1.2

theorem declaration_meets (s : TokenStream) (hS : StatementSound s)
    (ihB : ∀ s' : TokenStream, s'.left < s.left → BlockSound s') : DeclarationSound s := by
  intro first rest h
  have lt := left_advance_lt h
  have hr := rest_advance h
  have he := s.errors_advance
  have hx : (attempt s first lt).Meets s ReadsStmt := by
    unfold attempt
    split
    · rename_i hk
      have hf := funcDecl_meets first s.advance fun s' h' => ihB s' (by omega)
      exact .after (.past hr he (hf.mono fun st used next hst => hst.with_first hk rfl)) _
    · rename_i hk
      have hv := varDecl_meets first s.advance
      exact .after (.past hr he (hv.mono fun st used next hst => hst.with_first hk rfl)) _
    · exact hS.mono fun st used next hst => hst.1
  rw [declaration]
  split
  · rename_i st next lt' heq
    exact (congrArg (Reading.Meets s ReadsStmt) heq).mp hx
  · rename_i f next moved le heq
    have hn : next.errors ≠ #[] := (congrArg (Reading.Meets s ReadsStmt) heq).mp hx
    intro hn'
    exact absurd ((errors_recover moved next).symm.trans hn') hn

theorem block_meets (s : TokenStream) (hD : DeclarationSound s)
    (ihB : ∀ s' : TokenStream, s'.left < s.left → BlockSound s') : BlockSound s := by
  intro start acc lt
  rw [block]
  split
  · exact .after (reject_meets _) lt
  · rename_i t rest h
    split
    · rename_i hk
      intro hn
      rw [errors_advance] at hn
      refine ⟨hn, [t], rest_advance h, [], (List.append_nil _).symm, rfl, ?_⟩
      exact spells_singleton.mpr (Token.terminal?_mark hk rfl)
    · split
      rename_i st next lt' hE
      have hd := hD t rest h
      rw [hE] at hd
      refine (ihB next lt' start (st :: acc) (Nat.lt_trans lt' lt)).behind fun hn => ?_
      obtain ⟨hs, used, hu, hst⟩ := hd hn
      refine ⟨hs, used, hu, ?_⟩
      rintro l used' _ ⟨new, rfl, hp, hu'⟩
      refine ⟨st :: new, by simp, by simp [Stmt.properAll, hst.proper, hp], ?_⟩
      have := hst.spells.append hu'
      rwa [← List.append_assoc] at this

/-- Reading statements and blocks is sound; by induction on the tokens that are left. -/
theorem statement_block_sound (s : TokenStream) : StatementSound s ∧ DeclarationSound s ∧ BlockSound s := by
  induction hn : s.left using Nat.strongRecOn generalizing s with
  | ind n ihn =>
    subst hn
    have ihS : ∀ s' : TokenStream, s'.left < s.left → StatementSound s' := fun s' lt => (ihn s'.left lt s' rfl).1
    have ihB : ∀ s' : TokenStream, s'.left < s.left → BlockSound s' := fun s' lt => (ihn s'.left lt s' rfl).2.2
    have hS := statement_meets s ihS ihB
    have hD := declaration_meets s hS ihB
    exact ⟨hS, hD, block_meets s hD ihB⟩

theorem declarations_sound (acc : List Stmt) (s : TokenStream) : (declarations acc s).2.errors = #[] →
    s.errors = #[] ∧ ∃ new, (declarations acc s).1 = acc.reverse ++ new ∧ Stmt.properAll new = true ∧
      Spells s.rest (Stmt.yieldAll new) := by
  induction hn : s.left using Nat.strongRecOn generalizing acc s with
  | ind n ihn =>
    subst hn
    rw [declarations]
    split
    · rename_i h
      intro he
      refine ⟨he, [], (List.append_nil _).symm, rfl, ?_⟩
      rw [h]
      exact spells_nil
    · rename_i t rest h
      split
      rename_i st next lt hE
      intro he
      obtain ⟨hn, new, hnew, hp, hy⟩ := ihn next.left lt (st :: acc) next rfl he
      have hd := (statement_block_sound s).2.1 t rest h
      rw [hE] at hd
      obtain ⟨hs, used, hu, hst⟩ := hd hn
      refine ⟨hs, st :: new, by simp [hnew], by simp [Stmt.properAll, hst.proper, hp], ?_⟩
      rw [hu]
      exact hst.spells.append hy

end TokenStream

theorem parse_body {tokens : List Token} (h : (parse tokens).errors = []) :
    Stmt.properAll (parse tokens).program.body = true ∧
      Spells (tokens.takeWhile (·.kind != .eof)) (Stmt.yieldAll (parse tokens).program.body) := by
  have he : (TokenStream.declarations [] (.ofTokens tokens)).2.errors = #[] := Array.toList_eq_nil_iff.mp h
  obtain ⟨-, new, hnew, hp, hy⟩ := TokenStream.declarations_sound [] _ he
  have hbody : (parse tokens).program.body = new := hnew
  rw [hbody]
  exact ⟨hp, hy⟩

/-- Where parsing reports no error, the tokens in front of the first end spell the program, and the program is one
of the grammar. -/
theorem parse_sound (tokens : List Token) (h : (parse tokens).errors = []) :
    Spells (tokens.takeWhile (·.kind != .eof)) (parse tokens).program.yield ∧
      (parse tokens).program.proper = true := by
  have he : (TokenStream.declarations [] (.ofTokens tokens)).2.errors = #[] := Array.toList_eq_nil_iff.mp h
  obtain ⟨-, new, hnew, hp, hy⟩ := TokenStream.declarations_sound [] _ he
  have hbody : (parse tokens).program.body = new := hnew
  unfold Program.yield Program.proper
  rw [hbody]
  exact ⟨hy, hp⟩

/-- The tokens of `if (a) if (b) x = -1 * (y + 2.5); else print x;`. -/
def danglingElse : List Token :=
  let mark (k : Kind) : Token := ⟨k, [], {}⟩
  let name (b : UInt8) : Token := ⟨.ident, [b], {}⟩
  let digit (b : UInt8) : Token := ⟨.int, [b], {}⟩
  [mark .kwIf, mark .lparen, name 97, mark .rparen, mark .kwIf, mark .lparen, name 98, mark .rparen,
    name 120, mark .assign, mark .minus, digit 49, mark .star, mark .lparen, name 121, mark .plus,
    ⟨.float, [50, 46, 53], {}⟩, mark .rparen, mark .semicolon, mark .kwElse, mark .kwPrint, name 120,
    mark .semicolon, mark .eof]

theorem danglingElse_sound : (parse danglingElse).errors = [] ∧
    Spells (danglingElse.takeWhile (·.kind != .eof)) (parse danglingElse).program.yield ∧
    (parse danglingElse).program.proper = true :=
  have h : (parse danglingElse).errors = [] := by decide +kernel
  ⟨h, parse_sound danglingElse h⟩

end RegCode
