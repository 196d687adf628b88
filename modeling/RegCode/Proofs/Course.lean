import RegCode.Proofs.Alike

/-!
# The course of a reading

Reading takes tokens from the front of a stream and puts errors behind those it has; it never goes back. So every
node of a tree was read from tokens of its own, with errors of its own: the nodes inside it from parts of these
tokens, with parts of these errors. This holds of all tokens, also where declarations are given up.
-/

namespace RegCode

namespace TokenStream

section
variable {s s' s₁ : TokenStream} {t : Token} {used us : List Token} {new es : List SyntaxError}

/-- The stream `s'` is `s` behind the tokens `used`, with the errors `new` put behind its own. -/
structure Passes (s s' : TokenStream) (used : List Token) (new : List SyntaxError) : Prop where
  rest : s.rest = used ++ s'.rest
  ending : s'.ending = s.ending
  prev : s'.prev = used.getLast?.getD s.prev
  errors : s'.errors.toList = s.errors.toList ++ new

theorem Passes.refl (s : TokenStream) : s.Passes s [] [] :=
  ⟨rfl, rfl, rfl, (List.append_nil _).symm⟩

theorem Passes.trans (h : s.Passes s₁ used new) (h' : s₁.Passes s' us es) :
    s.Passes s' (used ++ us) (new ++ es) where
  rest := by rw [h.rest, h'.rest, List.append_assoc]
  ending := h'.ending.trans h.ending
  prev := by
    rw [h'.prev, h.prev, List.getLast?_append]
    cases us.getLast? <;> rfl
  errors := by rw [h'.errors, h.errors, List.append_assoc]

theorem passes_advance {rest : List Token} (h : s.rest = t :: rest) : s.Passes s.advance [t] [] := by
  refine ⟨rest_advance h, ?_, ?_, ?_⟩
  · rw [advance, h]
  · rw [advance, h]
    rfl
  · rw [errors_advance, List.append_nil]

theorem passes_report (s : TokenStream) (t : Token) (f : SyntaxFault) : s.Passes (s.report t f) [] [.atToken t f] :=
  ⟨rfl, rfl, rfl, Array.toList_push⟩

theorem Passes.left (h : s.Passes s' used new) : s.left = used.length + s'.left := by
  rw [TokenStream.left, h.rest, List.length_append]
  rfl

theorem Passes.ne_nil (h : s.Passes s' used new) (lt : s'.left < s.left) : used ≠ [] := by
  rintro rfl
  have := h.left
  simp only [List.length_nil] at this
  omega

theorem passes_skip? {k : Kind} {lt : s'.left < s.left} (h : s.skip? k = some ⟨s', lt⟩) :
    ∃ t, t.kind = k ∧ s.Passes s' [t] [] := by
  unfold skip? at h
  split at h
  · cases h
  · rename_i t rest hr
    split at h
    · rename_i hk
      cases h
      exact ⟨t, hk, passes_advance hr⟩
    · cases h

end

end TokenStream

open TokenStream

/-! ## Readings -/

namespace Reading

variable {α β : Type} {start s : TokenStream} {used : List Token} {new : List SyntaxError}
  {Q Q₁ : α → List Token → List SyntaxError → Prop} {Q₂ : β → List Token → List SyntaxError → Prop}

/-- A reading that is done took tokens and reported errors with which `Q` holds. One that failed has reported its
fault last, and it has moved if it took a token. -/
def Course (Q : α → List Token → List SyntaxError → Prop) : Reading α start → Prop
  | .done a next _ => ∃ used new, start.Passes next used new ∧ Q a used new
  | .fail f next moved _ =>
    ∃ used new e, start.Passes next used (new ++ [e]) ∧ e.fault = f ∧ (moved = false → used = [])

theorem Course.passes {r : Reading α start} (h : r.Course Q) : ∃ us es, start.Passes r.reached us es := by
  cases r with
  | done a next lt =>
    obtain ⟨us, es, hp, -⟩ := h
    exact ⟨us, es, hp⟩
  | fail f next moved le =>
    obtain ⟨us, es, e, hp, -⟩ := h
    exact ⟨us, es ++ [e], hp⟩

theorem Course.mono {r : Reading α start} (h : r.Course Q)
    (hQ : ∀ a next us es, start.Passes next us es → us ≠ [] → Q a us es → Q₁ a us es) : r.Course Q₁ := by
  cases r with
  | done a next lt =>
    obtain ⟨us, es, hp, hq⟩ := h
    exact ⟨us, es, hp, hQ a next us es hp (hp.ne_nil lt) hq⟩
  | fail => exact h

theorem Course.after {r : Reading α s} (h : r.Course Q) (hp : start.Passes s used new) (lt : s.left < start.left)
    (hQ : ∀ a us es, Q a us es → Q₁ a (used ++ us) (new ++ es)) : (r.after lt).Course Q₁ := by
  cases r with
  | done a next lt' =>
    obtain ⟨us, es, hp', hq⟩ := h
    exact ⟨used ++ us, new ++ es, hp.trans hp', hQ a us es hq⟩
  | fail f next moved le =>
    obtain ⟨us, es, e, hp', he, -⟩ := h
    exact ⟨used ++ us, new ++ es, e, by rw [List.append_assoc]; exact hp.trans hp', he, Bool.noConfusion⟩

theorem Course.follow {r : Reading α start} {f : α → (s : TokenStream) → s.left < start.left → Reading β start}
    (h : r.Course Q) (hf : ∀ a s lt us es, start.Passes s us es → Q a us es → (f a s lt).Course Q₂) :
    (r.follow f).Course Q₂ := by
  cases r with
  | done a s lt =>
    obtain ⟨us, es, hp, hq⟩ := h
    exact hf a s lt us es hp hq
  | fail => exact h

theorem Course.bind {r : Reading α start} {f : α → (s : TokenStream) → s.left < start.left → Reading β s}
    (h : r.Course Q)
    (hf : ∀ a s lt us es, Q a us es → (f a s lt).Course fun b vs fs => Q₂ b (us ++ vs) (es ++ fs)) :
    (r.bind f).Course Q₂ :=
  h.follow fun a s lt us es hp hq => (hf a s lt us es hq).after hp lt fun _ _ _ hb => hb

theorem Course.chain {r : Reading α s} {lt : s.left < start.left}
    {f : α → (s' : TokenStream) → s'.left < s.left → Reading β start} (h : r.Course Q)
    (hp : start.Passes s used new) (hf : ∀ a s' lt' us es, start.Passes s' (used ++ us) (new ++ es) → Q a us es →
    (f a s' lt').Course Q₂) :
    (r.chain lt f).Course Q₂ := by
  cases r with
  | done a s' lt' =>
    obtain ⟨us, es, hp', hq⟩ := h
    exact hf a s' lt' us es (hp.trans hp') hq
  | fail f next moved le =>
    obtain ⟨us, es, e, hp', he, -⟩ := h
    exact ⟨used ++ us, new ++ es, e, by rw [List.append_assoc]; exact hp.trans hp', he, Bool.noConfusion⟩

theorem Course.map {r : Reading α start} {f : α → Token → β} (h : r.Course Q)
    (hf : ∀ a us t es, Q a (us ++ [t]) es → Q₂ (f a t) (us ++ [t]) es) : (r.map f).Course Q₂ := by
  cases r with
  | done a next lt =>
    obtain ⟨used, es, hp, hq⟩ := h
    obtain ⟨us, t, rfl⟩ := List.eq_nil_or_concat' used |>.resolve_left (hp.ne_nil lt)
    have hprev : next.prev = t := by rw [hp.prev, List.getLast?_concat, Option.getD_some]
    refine ⟨us ++ [t], es, hp, ?_⟩
    rw [hprev]
    exact hf a us t es hq
  | fail => exact h

end Reading

/-! ## Expressions -/

/-- The expression was read from the tokens `us`, with the errors `es`. An assignment without a target stays what
its left side is. -/
inductive Expr.ReadFrom : Expr → List Token → List SyntaxError → Prop where
  | literal (t : Token) (v : Literal) : ReadFrom (.literal (.ofToken t) v) [t] []
  | name (t : Token) : ReadFrom (.name (.ofToken t) t.literal) [t] []
  | group {e : Expr} {us : List Token} {es : List SyntaxError} (opening closing : Token) : e.ReadFrom us es →
      ReadFrom (.group ⟨opening.pos, ⟨opening.pos, closing.pos⟩⟩ e) (opening :: us ++ [closing]) es
  | sign {e : Expr} {us : List Token} {es : List SyntaxError} (op : Token) : e.ReadFrom us es →
      ReadFrom (.signNode op e) (op :: us) es
  | operator {left right : Expr} {us vs : List Token} {es fs : List SyntaxError} (op : Token) :
      left.ReadFrom us es →
      right.ReadFrom vs fs → ReadFrom (left.operatorNode op right) (us ++ op :: vs) (es ++ fs)
  | assign {e : Expr} {us : List Token} {es : List SyntaxError} (name op : Token) : e.ReadFrom us es →
      ReadFrom (.assign ⟨op.pos, ⟨name.pos, e.span.stop⟩⟩ name.literal e) (name :: op :: us) es
  | untargeted {left right : Expr} {us vs : List Token} {es fs : List SyntaxError} (op : Token) :
      left.ReadFrom us es → right.ReadFrom vs fs → left.target? = none →
      ReadFrom left (us ++ op :: vs) (es ++ fs ++ [.atToken op .badTarget])

theorem Expr.ReadFrom.of_target {e : Expr} {us : List Token} {es : List SyntaxError} {n : Bytes}
    (h : e.ReadFrom us es) (hn : e.target? = some n) :
    ∃ t, e = .name (.ofToken t) t.literal ∧ us = [t] ∧ es = [] := by
  cases h with
  | name t => exact ⟨t, rfl, rfl, rfl⟩
  | untargeted _ _ _ hnone => cases hnone.symm.trans hn
  | _ => cases hn

namespace TokenStream

variable {s start : TokenStream} {t : Token} {us vs : List Token} {es fs : List SyntaxError}

theorem reject_course {α : Type} {Q : α → List Token → List SyntaxError → Prop} (s : TokenStream)
    (f : SyntaxFault) :
    (s.reject f : Reading α s).Course Q :=
  ⟨[], [], _, s.passes_report _ _, rfl, fun _ => rfl⟩

theorem expect_course (s : TokenStream) (k : Kind) (f : SyntaxFault) :
    (s.expect k f).Course fun t us es => us = [t] ∧ es = [] := by
  cases hr : s.rest with
  | nil =>
    rw [expect_nil hr]
    exact s.reject_course f
  | cons t rest =>
    rw [expect_eq hr]
    by_cases hk : t.kind = k
    · rw [if_pos hk]
      exact ⟨[t], [], passes_advance hr, rfl, rfl⟩
    · rw [if_neg hk]
      exact s.reject_course f

theorem number_course (hp : start.Passes s [t] []) (v : Option Literal) (f : SyntaxFault)
    (lt : s.left < start.left) :
    (number t v f s lt).Course Expr.ReadFrom := by
  cases v with
  | some v => exact ⟨[t], [], hp, .literal t v⟩
  | none => exact ⟨[t], [], _, hp.trans (s.passes_report t f), rfl, Bool.noConfusion⟩

def ExprCourseBelow (n : Nat) : Prop :=
  ∀ (least : Nat) (s : TokenStream), s.left < n → (expr least s).Course Expr.ReadFrom

theorem operand_course (ih : ExprCourseBelow s.left) : (operand s).Course Expr.ReadFrom := by
  cases hr : s.rest with
  | nil =>
    rw [operand_nil hr]
    exact s.reject_course _
  | cons t rest =>
    have hp := passes_advance hr
    have hlt := left_advance_lt hr
    have hsign : (Reading.after ((expr Kind.signStrength s.advance).map fun e _ => .signNode t e) hlt).Course
        Expr.ReadFrom := by
      have hx : ((expr Kind.signStrength s.advance).map fun e _ => Expr.signNode t e).Course
          fun e us es => e.ReadFrom (t :: us) es :=
        (ih _ _ hlt).map fun e us last es he => .sign t he
      exact hx.after hp hlt fun _ _ _ he => he
    rw [operand_eq hr]
    split
    · exact number_course hp _ _ _
    · exact number_course hp _ _ _
    · exact ⟨[t], [], hp, .literal t _⟩
    · exact ⟨[t], [], hp, .name t⟩
    · have hx : ((expr Kind.weakest s.advance).bind fun inner s _ => (s.expect .rparen .unclosedGroup).map
          fun close _ => Expr.group ⟨t.pos, ⟨t.pos, close.pos⟩⟩ inner).Course
          fun e us es => e.ReadFrom (t :: us) es := by
        refine (ih _ _ hlt).bind fun inner s₁ _ us es he => ?_
        refine ((s₁.expect_course _ _).map fun close vs last fs hc => ?_ :
          Reading.Course (fun e vs fs => Expr.ReadFrom e (t :: (us ++ vs)) (es ++ fs)) _)
        obtain ⟨hc, rfl⟩ := hc
        rw [hc, List.append_nil]
        exact .group t close he
      exact hx.after hp hlt fun _ _ _ he => he
    · exact hsign
    · exact hsign
    · exact s.reject_course _

theorem joined_course {left right : Expr} (op : Token) (hl : left.ReadFrom us es) (hr : right.ReadFrom vs fs)
    (hp : start.Passes s (us ++ op :: vs) (es ++ fs)) :
    ∃ new, start.Passes (joined left op right s).2 (us ++ op :: vs) new ∧
      (joined left op right s).1.ReadFrom (us ++ op :: vs) new := by
  unfold joined
  by_cases hk : op.kind = .assign
  · rw [if_pos hk]
    cases ha : left.target? with
    | some n =>
      obtain ⟨t, rfl, rfl, rfl⟩ := hl.of_target ha
      exact ⟨_, hp, .assign t op hr⟩
    | none =>
      simp only [Expr.assignNode?, ha]
      refine ⟨_, ?_, .untargeted op hl hr ha⟩
      have := hp.trans (s.passes_report op .badTarget)
      rwa [List.append_nil] at this
  · rw [if_neg hk]
    exact ⟨_, hp, .operator op hl hr⟩

theorem operators_course {n : Nat} (ih : ExprCourseBelow n) (least : Nat) {left : Expr} (hs : s.left ≤ n)
    (hp : start.Passes s us es) (hl : left.ReadFrom us es) (lt : s.left < start.left) :
    (operators start least left s lt).Course Expr.ReadFrom := by
  induction hm : s.left using Nat.strongRecOn generalizing left s us es with
  | ind m ihm =>
    subst hm
    by_cases hstop : ahead s.rest ≤ least
    · rw [operators_stop lt hstop]
      exact ⟨us, es, hp, hl⟩
    · cases hr : s.rest with
      | nil => exact absurd (by rw [hr]; exact Nat.zero_le _) hstop
      | cons op rest =>
        rw [hr, ahead, Nat.not_le] at hstop
        have hlt := left_advance_lt hr
        rw [operators_eq lt hr hstop]
        have hp₁ := hp.trans (passes_advance hr)
        refine (ih _ s.advance (by omega)).chain hp₁ fun right next lt' vs fs hp' hright => ?_
        rw [List.append_nil, List.append_assoc] at hp'
        obtain ⟨new, hpj, hj⟩ := joined_course op hl hright hp'
        have hleft := left_joined left op right next
        exact ihm _ (by omega) (by omega) hpj hj _ rfl

theorem expr_course (least : Nat) (s : TokenStream) : (expr least s).Course Expr.ReadFrom := by
  have hall : ∀ n, ExprCourseBelow n := by
    intro n
    induction n with
    | zero => exact fun _ s hs => absurd hs (Nat.not_lt_zero _)
    | succ n ih =>
      intro least s hs
      rw [expr_eq]
      refine (operand_course fun least s₁ h => ih least s₁ (by omega)).follow fun e s₁ lt us es hp he => ?_
      exact operators_course ih least (by omega) hp he lt
  exact hall (s.left + 1) least s (Nat.lt_succ_self _)

end TokenStream

/-! ## Statements -/

theorem Expr.ReadFrom.ne_nil {e : Expr} {us : List Token} {es : List SyntaxError} (h : e.ReadFrom us es) :
    us ≠ [] := by
  cases h <;> simp

/-- The parameters were read from the tokens `us`, behind the opening bracket. -/
inductive Param.ReadFrom : List Param → List Token → Prop where
  | nil (closing : Token) : ReadFrom [] [closing]
  | last (name closing : Token) : ReadFrom [⟨name.literal, name.pos⟩] [name, closing]
  | cons {p : Param} {ps : List Param} {us : List Token} (name comma : Token) : ReadFrom (p :: ps) us →
      ReadFrom (⟨name.literal, name.pos⟩ :: p :: ps) (name :: comma :: us)

mutual

/-- The statement was read from the tokens `us`, with the errors `es`. Where a declaration was given up, the last
error says why. -/
inductive Stmt.ReadFrom : Stmt → List Token → List SyntaxError → Prop where
  | var (first name last : Token) :
      ReadFrom (.var (.between first last) name.literal name.pos none) [first, name, last] []
  | varInit {e : Expr} {us : List Token} {es : List SyntaxError} (first name sign last : Token) : e.ReadFrom us es →
      ReadFrom (.var (.between first last) name.literal name.pos (some e))
      (first :: name :: sign :: us ++ [last]) es
  | print {e : Expr} {us : List Token} {es : List SyntaxError} (first last : Token) : e.ReadFrom us es →
      ReadFrom (.print (.between first last) e) (first :: us ++ [last]) es
  | expr {e : Expr} {first : Token} {us : List Token} {es : List SyntaxError} (last : Token) :
      e.ReadFrom (first :: us) es → ReadFrom (.expr (.between first last) e) (first :: us ++ [last]) es
  | ret (first last : Token) : ReadFrom (.ret (.between first last) none) [first, last] []
  | retValue {e : Expr} {us : List Token} {es : List SyntaxError} (first last : Token) : e.ReadFrom us es →
      ReadFrom (.ret (.between first last) (some e)) (first :: us ++ [last]) es
  | block {body : List Stmt} {us : List Token} {es : List SyntaxError} (first last : Token) :
      ReadAllFrom body us es →
      ReadFrom (.block (.between first last) body) (first :: us ++ [last]) es
  | ifThen {cond : Expr} {yes : Stmt} {us vs : List Token} {es fs : List SyntaxError}
      (first opening closing last : Token) : cond.ReadFrom us es → ReadFrom yes (vs ++ [last]) fs →
      ReadFrom (.ifThen (.between first last) cond yes) (first :: opening :: us ++ closing :: vs ++ [last])
      (es ++ fs)
  | ifElse {cond : Expr} {yes no : Stmt} {us vs ws : List Token} {es fs gs : List SyntaxError}
      (first opening closing other last : Token) : cond.ReadFrom us es → ReadFrom yes vs fs →
      ReadFrom no (ws ++ [last]) gs →
      ReadFrom (.ifElse (.between first last) cond yes no)
        (first :: opening :: us ++ closing :: vs ++ other :: ws ++ [last]) (es ++ fs ++ gs)
  | while {cond : Expr} {body : Stmt} {us vs : List Token} {es fs : List SyntaxError}
      (first opening closing last : Token) : cond.ReadFrom us es → ReadFrom body (vs ++ [last]) fs →
      ReadFrom (.while (.between first last) cond body) (first :: opening :: us ++ closing :: vs ++ [last])
      (es ++ fs)
  | func {params : List Param} {body : List Stmt} {us vs : List Token} {fs : List SyntaxError}
      (first name bracket opening last : Token) (es : List SyntaxError) : Param.ReadFrom params us →
      ReadAllFrom body vs fs →
      ReadFrom (.func (.between first last) name.literal name.pos params body)
        (first :: name :: bracket :: us ++ opening :: vs ++ [last]) (es ++ fs)
  | bad {us : List Token} {es : List SyntaxError} (first last : Token) (e : SyntaxError) :
      (first :: us).getLast? = some last → ReadFrom (.bad (.between first last) e.message) (first :: us) (es ++ [e])

/-- The same for the statements of a list, one behind the other. -/
inductive Stmt.ReadAllFrom : List Stmt → List Token → List SyntaxError → Prop where
  | nil : ReadAllFrom [] [] []
  | cons {x : Stmt} {rest : List Stmt} {us vs : List Token} {es fs : List SyntaxError} : ReadFrom x us es →
      ReadAllFrom rest vs fs → ReadAllFrom (x :: rest) (us ++ vs) (es ++ fs)

end

namespace TokenStream

variable {s start : TokenStream} {us : List Token} {es : List SyntaxError}

theorem finish_course (first : Token) (f : SyntaxFault) (node : Place → Stmt) (s : TokenStream) :
    (finish first f node s).Course fun st us es => ∃ last, st = node (.between first last) ∧ us = [last] ∧
    es = [] := by
  refine (s.expect_course .semicolon f).map fun t us last es h => ?_
  obtain ⟨hu, he⟩ := h
  obtain ⟨rfl, h⟩ := List.append_eq_singleton_iff.mp hu |>.elim id fun h => absurd h.2 (by simp)
  exact ⟨last, rfl, rfl, he⟩

theorem value_course (first : Token) (f : SyntaxFault) (node : Expr → Place → Stmt) (s : TokenStream) :
    ((expr Kind.weakest s).bind fun e s _ => finish first f (node e) s).Course fun st us es =>
      ∃ e vs last, st = node e (.between first last) ∧ us = vs ++ [last] ∧ e.ReadFrom vs es := by
  refine (expr_course _ s).bind fun e s₁ _ vs es he => (finish_course first f (node e) s₁).mono ?_
  rintro st next us fs - - ⟨last, rfl, rfl, rfl⟩
  exact ⟨e, vs, last, rfl, rfl, by rwa [List.append_nil]⟩

theorem varDecl_course (first : Token) (s : TokenStream) :
    (varDecl first s).Course fun st us es => st.ReadFrom (first :: us) es := by
  unfold varDecl
  refine (s.expect_course _ _).bind fun name s₁ _ us es h => ?_
  obtain ⟨rfl, rfl⟩ := h
  dsimp only
  split
  · rename_i next lt hskip
    obtain ⟨sign, -, hp⟩ := passes_skip? hskip
    refine (value_course first _ _ next).after hp lt ?_
    rintro st us es ⟨e, vs, last, rfl, rfl, he⟩
    exact .varInit first name sign last he
  · refine (finish_course first _ _ s₁).mono ?_
    rintro st next us es - - ⟨last, rfl, rfl, rfl⟩
    exact .var first name last

theorem printStmt_course (first : Token) (s : TokenStream) :
    (printStmt first s).Course fun st us es => st.ReadFrom (first :: us) es := by
  refine (value_course first _ (fun e p => .print p e) s).mono ?_
  rintro st next us es - - ⟨e, vs, last, rfl, rfl, he⟩
  exact .print first last he

theorem returnStmt_course (first : Token) (s : TokenStream) :
    (returnStmt first s).Course fun st us es => st.ReadFrom (first :: us) es := by
  unfold returnStmt
  split
  · refine (finish_course first _ _ s).mono ?_
    rintro st next us es - - ⟨last, rfl, rfl, rfl⟩
    exact .ret first last
  · refine (value_course first _ (fun e p => .ret p (some e)) s).mono ?_
    rintro st next us es - - ⟨e, vs, last, rfl, rfl, he⟩
    exact .retValue first last he

theorem exprStmt_course (s : TokenStream) : (exprStmt s).Course Stmt.ReadFrom := by
  refine (value_course s.current _ (fun e p => .expr p e) s).mono ?_
  rintro st next us es hp - ⟨e, vs, last, rfl, rfl, he⟩
  obtain ⟨first, vs, rfl⟩ := List.exists_cons_of_ne_nil he.ne_nil
  have hcur : s.current = first := by rw [current, hp.rest]; rfl
  rw [hcur]
  exact .expr last he

theorem condition_course (opening closing : SyntaxFault) (s : TokenStream) :
    (condition opening closing s).Course fun e us es =>
      ∃ t vs t', us = t :: vs ++ [t'] ∧ e.ReadFrom vs es := by
  refine (s.expect_course _ _).bind fun t s₁ _ us es h => ?_
  obtain ⟨rfl, rfl⟩ := h
  refine (expr_course _ s₁).bind fun e s₂ _ vs es he => ?_
  refine (s₂.expect_course _ _).map fun t' us last fs h => ?_
  obtain ⟨hu, rfl⟩ := h
  exact ⟨t, vs, t', by rw [hu]; rfl, by simpa using he⟩

theorem counted_passes (acc : List Param) (s : TokenStream) : ∃ es, s.Passes (counted acc s) [] es := by
  unfold counted
  split
  · exact ⟨[], .refl s⟩
  · exact ⟨_, s.passes_report _ _⟩

/-- What a list of parameters that began in front of the tokens `us`, with those in `acc`, goes on with. -/
def ReadsParameters (acc : List Param) (us : List Token) (ps : List Param) (all : List Token) : Prop :=
  ∃ p new vs, ps = acc.reverse ++ p :: new ∧ all = us ++ vs ∧ Param.ReadFrom (p :: new) vs

theorem parameters_course (acc : List Param) (hp : start.Passes s us es) (lt : s.left < start.left) :
    (parameters start acc s lt).Course fun ps all _ => ReadsParameters acc us ps all := by
  induction hn : s.left using Nat.strongRecOn generalizing acc s us es with
  | ind n ih =>
    subst hn
    have hc := left_counted acc s
    obtain ⟨fs, hcp⟩ := counted_passes acc s
    rw [parameters_eq rfl lt (hc ▸ lt)]
    refine ((counted acc s).expect_course _ _).chain (hp.trans hcp) fun t s₁ lt₁ vs gs hp₁ h => ?_
    obtain ⟨rfl, rfl⟩ := h
    rw [List.append_nil] at hp₁
    unfold moreParameters
    split
    · rename_i next lt₂ hskip
      obtain ⟨comma, -, hp₂⟩ := passes_skip? hskip
      refine (ih _ (by omega) _ (hp₁.trans hp₂) _ rfl).mono ?_
      rintro ps _ all _ - - ⟨p, new, vs, rfl, rfl, h⟩
      exact ⟨_, p :: new, t :: comma :: vs, by simp, by simp, .cons t comma h⟩
    · refine Reading.Course.after (Q := fun ps vs _ => ∃ closing, ps = acc.reverse ++ [⟨t.literal, t.pos⟩] ∧
        vs = [closing]) ?_ hp₁ _ ?_
      · exact (s₁.expect_course _ _).map fun closing _ _ _ h => ⟨closing, by simp, h.1⟩
      · rintro _ _ _ ⟨closing, rfl, rfl⟩
        exact ⟨_, [], [t, closing], rfl, by simp, .last t closing⟩

theorem parameterList_course (s : TokenStream) : (parameterList s).Course fun ps us _ =>
    ∃ bracket vs, us = bracket :: vs ∧ Param.ReadFrom ps vs := by
  refine (s.expect_course _ _).follow fun bracket s₁ lt us es hp h => ?_
  obtain ⟨rfl, rfl⟩ := h
  split
  · rename_i next lt' hskip
    obtain ⟨t, -, hp'⟩ := passes_skip? hskip
    exact ⟨_, _, hp.trans hp', bracket, [t], rfl, .nil t⟩
  · refine (parameters_course [] hp lt).mono ?_
    rintro _ _ _ _ - - ⟨p, new, vs, rfl, rfl, h⟩
    exact ⟨bracket, vs, rfl, h⟩

/-! ## Declarations -/

def StatementCourseBelow (n : Nat) : Prop :=
  ∀ s : TokenStream, s.left < n → (statement s).Course Stmt.ReadFrom

/-- What a block that began in front of the tokens `us`, with the statements in `acc`, goes on with: more statements
and a closing token. -/
def ReadsBody (acc : List Stmt) (us : List Token) (es : List SyntaxError) (l : List Stmt) (all : List Token)
    (errors : List SyntaxError) : Prop :=
  ∃ body vs fs last, l = acc.reverse ++ body ∧ all = us ++ vs ++ [last] ∧ errors = es ++ fs ∧
    Stmt.ReadAllFrom body vs fs

def BlockCourseBelow (n : Nat) : Prop :=
  ∀ (start s : TokenStream) (acc : List Stmt) (us : List Token) (es : List SyntaxError) (lt : s.left < start.left),
    s.left < n → start.Passes s us es → (block start acc s lt).Course (ReadsBody acc us es)

theorem ifStmt_course {n : Nat} (ih : StatementCourseBelow n) (first : Token) (hs : s.left ≤ n) :
    (ifStmt first s).Course fun st us es => st.ReadFrom (first :: us) es := by
  rw [ifStmt_eq]
  refine (condition_course _ _ s).bind fun cond s₁ lt₁ us es hcond => ?_
  obtain ⟨opening, us, closing, rfl, hcond⟩ := hcond
  refine (ih s₁ (by omega)).follow fun yes s₂ lt₂ vs fs hp hyes => ?_
  unfold elseBranch
  split
  · rename_i next lt₃ hskip
    obtain ⟨other, -, hp'⟩ := passes_skip? hskip
    refine Reading.Course.after ((ih next (by omega)).map fun no ws last gs hno => ?_ :
      Reading.Course (fun st ws gs => Stmt.ReadFrom st
        (first :: opening :: us ++ closing :: vs ++ other :: ws) (es ++ fs ++ gs)) _)
      (hp.trans hp') _ fun st ws gs h => ?_
    · simpa using Stmt.ReadFrom.ifElse first opening closing other last hcond hyes hno
    · simpa using h
  · obtain ⟨vs, last, rfl⟩ := List.eq_nil_or_concat' vs |>.resolve_left (hp.ne_nil lt₂)
    have hprev : s₂.prev = last := by rw [hp.prev, List.getLast?_concat, Option.getD_some]
    refine ⟨_, _, hp, ?_⟩
    rw [hprev]
    simpa using Stmt.ReadFrom.ifThen first opening closing last hcond hyes

theorem whileStmt_course {n : Nat} (ih : StatementCourseBelow n) (first : Token) (hs : s.left ≤ n) :
    (whileStmt first s).Course fun st us es => st.ReadFrom (first :: us) es := by
  rw [whileStmt]
  refine (condition_course _ _ s).bind fun cond s₁ lt₁ us es hcond => ?_
  obtain ⟨opening, us, closing, rfl, hcond⟩ := hcond
  refine (ih s₁ (by omega)).map fun body vs last fs hbody => ?_
  simpa using Stmt.ReadFrom.while first opening closing last hcond hbody

theorem funcDecl_course {n : Nat} (ih : BlockCourseBelow n) (first : Token) (hs : s.left ≤ n) :
    (funcDecl first s).Course fun st us es => st.ReadFrom (first :: us) es := by
  rw [funcDecl]
  refine (s.expect_course _ _).bind fun name s₁ lt₁ us es h => ?_
  obtain ⟨rfl, rfl⟩ := h
  refine (parameterList_course s₁).bind fun params s₂ lt₂ us es hparams => ?_
  obtain ⟨bracket, us, rfl, hparams⟩ := hparams
  refine (s₂.expect_course _ _).follow fun opening s₃ lt₃ _ _ hp h => ?_
  obtain ⟨rfl, rfl⟩ := h
  refine (ih s₂ s₃ [] _ _ lt₃ (by omega) hp).map fun l ws last fs h => ?_
  obtain ⟨body, vs, fs, last', rfl, hall, rfl, hbody⟩ := h
  obtain ⟨rfl, hlast⟩ := List.append_inj' hall rfl
  cases hlast
  simpa using Stmt.ReadFrom.func first name bracket opening last es hparams hbody

theorem statement_course (ihS : StatementCourseBelow s.left) (ihB : BlockCourseBelow s.left) :
    (statement s).Course Stmt.ReadFrom := by
  cases hr : s.rest with
  | nil =>
    rw [statement_nil hr]
    exact s.exprStmt_course
  | cons t rest =>
    have hp := passes_advance hr
    have hlt := left_advance_lt hr
    rw [statement_eq hr]
    split
    · exact (ifStmt_course ihS t (Nat.le_of_lt hlt)).after hp hlt fun _ _ _ h => h
    · exact (whileStmt_course ihS t (Nat.le_of_lt hlt)).after hp hlt fun _ _ _ h => h
    · exact (returnStmt_course t _).after hp hlt fun _ _ _ h => h
    · exact (printStmt_course t _).after hp hlt fun _ _ _ h => h
    · refine (ihB s _ [] _ _ hlt hlt hp).map fun l ws last fs h => ?_
      obtain ⟨body, vs, fs, last', rfl, hall, rfl, hbody⟩ := h
      obtain ⟨rfl, hlast⟩ := List.append_inj' hall rfl
      cases hlast
      exact .block t last hbody
    · exact s.exprStmt_course

theorem attempt_course {t : Token} (hS : StatementCourseBelow (s.left + 1)) (ihB : BlockCourseBelow s.left)
    {rest : List Token} (hr : s.rest = t :: rest) :
    (attempt s t (left_advance_lt hr)).Course Stmt.ReadFrom := by
  have hp := passes_advance hr
  have hlt := left_advance_lt hr
  unfold attempt
  split
  · exact (funcDecl_course ihB t (Nat.le_of_lt hlt)).after hp hlt fun _ _ _ h => h
  · exact (varDecl_course t _).after hp hlt fun _ _ _ h => h
  · exact hS s (Nat.lt_succ_self _)

theorem passes_resume (s : TokenStream) : ∃ us, s.Passes s.resume us [] := by
  fun_induction resume s with
  | case1 s => exact ⟨[], .refl s⟩
  | case2 s => exact ⟨[], .refl s⟩
  | case3 s t rest hr _ ih =>
    obtain ⟨us, h⟩ := ih
    exact ⟨t :: us, (passes_advance hr).trans h⟩

theorem passes_recover (moved : Bool) (s : TokenStream) : ∃ us, s.Passes (s.recover moved) us [] := by
  unfold recover
  split
  · exact s.passes_resume
  · obtain ⟨us, h⟩ := s.advance.passes_resume
    cases hr : s.rest with
    | nil =>
      have hadv : s.advance = s := by rw [advance, hr]
      exact ⟨us, by rwa [hadv] at h ⊢⟩
    | cons t rest => exact ⟨t :: us, (passes_advance hr).trans h⟩

/-- A declaration that is given up is kept, and read from the tokens up to where reading goes on. -/
theorem settled_course {t : Token} {rest : List Token} {r : Reading Stmt s} (hr : s.rest = t :: rest)
    (h : r.Course Stmt.ReadFrom) :
    ∃ us es, s.Passes (settled t r).2 us es ∧ (settled t r).1.ReadFrom us es := by
  cases r with
  | done st next lt => exact h
  | fail f next moved le =>
    obtain ⟨us, es, e, hp, rfl, -⟩ := h
    obtain ⟨vs, hp'⟩ := next.passes_recover moved
    have hall := hp.trans hp'
    rw [List.append_nil] at hall
    have hpos : 0 < s.left := by simp [left, hr]
    have hne := hall.ne_nil (left_recover_lt hpos le)
    have hprev := hall.prev
    have hrest := hall.rest
    simp only [settled]
    revert hne hprev hrest hall
    generalize us ++ vs = all
    intro hall hne hprev hrest
    obtain ⟨first, all, rfl⟩ := List.exists_cons_of_ne_nil hne
    obtain rfl : t = first := (List.cons.inj (hr.symm.trans hrest)).1
    refine ⟨_, _, hall, .bad t _ e ?_⟩
    rw [hprev, List.getLast?_cons, Option.getD_some]

def DeclarationCourse (s : TokenStream) : Prop :=
  ∀ (first : Token) (rest : List Token) (h : s.rest = first :: rest), ∃ us es,
    s.Passes (declaration s first rest h).1.2 us es ∧ (declaration s first rest h).1.1.ReadFrom us es

theorem block_course (hD : DeclarationCourse s) (ihB : BlockCourseBelow s.left) (acc : List Stmt)
    (hp : start.Passes s us es) (lt : s.left < start.left) :
    (block start acc s lt).Course (ReadsBody acc us es) := by
  cases hr : s.rest with
  | nil =>
    rw [block_nil acc lt hr]
    exact (s.reject_course _).after hp lt (Q := fun _ _ _ => False) fun _ _ _ h => h.elim
  | cons t rest =>
    rw [block_cons acc lt hr]
    split
    · exact ⟨_, _, hp.trans (passes_advance hr), [], [], [], t, by simp, by simp, rfl, .nil⟩
    · obtain ⟨vs, fs, hpd, hd⟩ := hD t rest hr
      refine (ihB start _ _ _ _ _ (declaration s t rest hr).2 (hp.trans hpd)).mono ?_
      rintro l next all errors - - ⟨body, ws, gs, last, rfl, rfl, rfl, hbody⟩
      exact ⟨_ :: body, vs ++ ws, fs ++ gs, last, by simp, by simp, by simp, .cons hd hbody⟩

theorem statement_block_course (n : Nat) : StatementCourseBelow n ∧
    (∀ s : TokenStream, s.left < n → DeclarationCourse s) ∧ BlockCourseBelow n := by
  induction n with
  | zero =>
    refine ⟨fun s hs => absurd hs (Nat.not_lt_zero _), fun s hs => absurd hs (Nat.not_lt_zero _), ?_⟩
    exact fun _ s _ _ _ _ hs => absurd hs (Nat.not_lt_zero _)
  | succ n ih =>
    obtain ⟨ihS, -, ihB⟩ := ih
    have hB {m : Nat} (hm : m ≤ n) : BlockCourseBelow m :=
      fun start s₁ acc us es lt hlt => ihB start s₁ acc us es lt (by omega)
    have hS : StatementCourseBelow (n + 1) := fun s hs =>
      statement_course (fun s₁ hlt => ihS s₁ (by omega)) (hB (by omega))
    have hD : ∀ s : TokenStream, s.left < n + 1 → DeclarationCourse s := by
      intro s hs first rest hr
      rw [declaration_eq]
      exact settled_course hr (attempt_course (fun s₁ hlt => hS s₁ (by omega)) (hB (by omega)) hr)
    exact ⟨hS, hD, fun start s acc us es lt hs hp => block_course (hD s hs) (hB (by omega)) acc hp lt⟩

theorem declaration_course (s : TokenStream) : DeclarationCourse s :=
  (statement_block_course (s.left + 1)).2.1 s (Nat.lt_succ_self _)

/-- All tokens are read, one declaration behind the other. -/
theorem declarations_course (acc : List Stmt) (s : TokenStream) : ∃ body new,
    (declarations acc s).1 = acc.reverse ++ body ∧ s.Passes (declarations acc s).2 s.rest new ∧
      Stmt.ReadAllFrom body s.rest new := by
  induction hn : s.left using Nat.strongRecOn generalizing acc s with
  | ind n ih =>
    subst hn
    cases hr : s.rest with
    | nil =>
      rw [declarations_nil acc hr]
      exact ⟨[], [], (List.append_nil _).symm, .refl s, .nil⟩
    | cons t rest =>
      rw [declarations_cons acc hr, ← hr]
      obtain ⟨us, es, hp, hd⟩ := s.declaration_course t rest hr
      obtain ⟨body, new, hbody, hp', hall⟩ := ih _ (declaration s t rest hr).2 (_ :: acc) _ rfl
      refine ⟨(declaration s t rest hr).1.1 :: body, es ++ new, by rw [hbody]; simp, ?_, ?_⟩
      · rw [hp.rest]
        exact hp.trans hp'
      · rw [hp.rest]
        exact .cons hd hall

end TokenStream

/-- The tokens up to the first end make the program, and the errors are those of its statements. -/
theorem parse_readFrom (tokens : List Token) :
    Stmt.ReadAllFrom (parse tokens).program.body (tokens.takeWhile (·.kind != .eof)) (parse tokens).errors := by
  obtain ⟨body, new, hbody, hp, hall⟩ := declarations_course [] (ofTokens tokens)
  have herrors : (parse tokens).errors = new := hp.errors
  have hprogram : (parse tokens).program.body = body := hbody
  rw [herrors, hprogram]
  exact hall

end RegCode
