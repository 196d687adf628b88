import Mathlib.Data.List.TakeWhile
import RegCode.Proofs.Course

/-!
# One text behind another

Where a text has no errors, it is read in the same way with another one behind it, since no statement looks at a
token behind its own except for an `else`. The statements are those of the grammar, so reading gives them back
without their places; and the places are settled by the tokens alone. Behind the first text only the token read last
tells that there was one, and that token is not looked at before another one is read.
-/

namespace RegCode

open TokenStream

/-! ## What is read from the front of a list of tokens -/

section
variable {us us' rest rest' : List Token} {es es' : List SyntaxError}

/-- Two expressions that differ in places only, read without errors from the front of one list of tokens, are the
same. -/
theorem Expr.ReadFrom.unique {e e' : Expr} (h : e.ReadFrom us es) (h' : e'.ReadFrom us' es') (hes : es = [])
    (hes' : es' = []) (hb : e.bare = e'.bare) (hall : us ++ rest = us' ++ rest') :
    e = e' ∧ us = us' ∧ rest = rest' := by
  induction h generalizing e' us' es' rest rest' with
  | literal t v =>
    cases h' with
    | literal t' v' =>
      cases hb
      cases hall
      exact ⟨rfl, rfl, rfl⟩
    | untargeted => simp at hes'
    | _ => cases hb
  | name t =>
    cases h' with
    | name t' =>
      cases hall
      exact ⟨rfl, rfl, rfl⟩
    | untargeted => simp at hes'
    | _ => cases hb
  | group opening closing _ ih =>
    cases h' with
    | group opening' closing' h' =>
      simp only [Expr.bare, Expr.group.injEq] at hb
      simp only [List.append_assoc, List.cons_append, List.cons.injEq] at hall
      obtain ⟨rfl, rfl, hclosing⟩ := ih h' hes hes' hb.2 hall.2
      cases hall.1
      cases hclosing
      exact ⟨rfl, rfl, rfl⟩
    | untargeted => simp at hes'
    | _ => cases hb
  | sign op _ ih =>
    cases h' with
    | sign op' h' =>
      simp only [Expr.signNode, Expr.bare, Expr.unary.injEq] at hb
      simp only [List.cons_append, List.cons.injEq] at hall
      obtain ⟨rfl, rfl, rfl⟩ := ih h' hes hes' hb.2.2 hall.2
      cases hall.1
      exact ⟨rfl, rfl, rfl⟩
    | untargeted => simp at hes'
    | _ => cases hb
  | operator op _ _ ihl ihr =>
    cases h' with
    | operator op' hl' hr' =>
      simp only [Expr.operatorNode, Expr.bare, Expr.binary.injEq] at hb
      simp only [List.append_assoc, List.cons_append] at hall
      rw [List.append_eq_nil_iff] at hes hes'
      obtain ⟨rfl, rfl, hright⟩ := ihl hl' hes.1 hes'.1 hb.2.2.1 hall
      obtain ⟨rfl, hright'⟩ := List.cons.inj hright
      obtain ⟨rfl, rfl, rfl⟩ := ihr hr' hes.2 hes'.2 hb.2.2.2 hright'
      exact ⟨rfl, rfl, rfl⟩
    | untargeted => simp at hes'
    | _ => cases hb
  | assign name op _ ih =>
    cases h' with
    | assign name' op' h' =>
      simp only [Expr.bare, Expr.assign.injEq] at hb
      simp only [List.cons_append, List.cons.injEq] at hall
      obtain ⟨rfl, rfl, rfl⟩ := ih h' hes hes' hb.2.2 hall.2.2
      cases hall.1
      cases hall.2.1
      exact ⟨rfl, rfl, rfl⟩
    | untargeted => simp at hes'
    | _ => cases hb
  | untargeted => simp at hes

theorem Expr.ReadFrom.unique_before {e e' : Expr} {t t' : Token} (h : e.ReadFrom us es) (h' : e'.ReadFrom us' es')
    (hes : es = []) (hes' : es' = []) (hb : e.bare = e'.bare) (hall : us ++ t :: rest = us' ++ t' :: rest') :
    e = e' ∧ us = us' ∧ t = t' ∧ rest = rest' := by
  obtain ⟨he, hus, hrest⟩ := h.unique h' hes hes' hb hall
  exact ⟨he, hus, List.cons.inj hrest⟩

theorem Param.ReadFrom.unique {ps ps' : List Param} (h : Param.ReadFrom ps us) (h' : Param.ReadFrom ps' us')
    (hb : ps.map Param.bare = ps'.map Param.bare) (hall : us ++ rest = us' ++ rest') :
    ps = ps' ∧ us = us' ∧ rest = rest' := by
  induction h generalizing ps' us' with
  | nil closing =>
    cases h' with
    | nil closing' =>
      cases hall
      exact ⟨rfl, rfl, rfl⟩
    | _ => simp at hb
  | last name closing =>
    cases h' with
    | last name' closing' =>
      cases hall
      exact ⟨rfl, rfl, rfl⟩
    | _ => simp at hb
  | cons name comma _ ih =>
    cases h' with
    | cons name' comma' h' =>
      simp only [List.cons_append, List.cons.injEq] at hall
      obtain ⟨hps, rfl, rfl⟩ := ih h' (List.cons.inj hb).2 hall.2.2
      cases hps
      cases hall.1
      cases hall.2.1
      exact ⟨rfl, rfl, rfl⟩
    | _ => simp at hb

theorem append_last {last last' : Token} (h : us ++ last :: rest = us' ++ last' :: rest') :
    (us ++ [last]) ++ rest = (us' ++ [last']) ++ rest' := by
  simpa using h

end

mutual

theorem Stmt.ReadFrom.unique : ∀ {x x' : Stmt} {us us' rest rest' : List Token} {es es' : List SyntaxError},
    ReadFrom x us es → ReadFrom x' us' es' → es = [] → es' = [] → x.bare = x'.bare → us ++ rest = us' ++ rest' →
    x = x' ∧ us = us' ∧ rest = rest'
  | _, _, _, _, _, _, _, _, .var first name last, h', _, _, hb, hall => by
    cases h' with
    | var first' name' last' =>
      cases hall
      exact ⟨rfl, rfl, rfl⟩
    | varInit => simp [Stmt.bare] at hb
    | _ => cases hb
  | _, _, _, _, _, _, _, _, .varInit first name sign last he, h', hes, hes', hb, hall => by
    cases h' with
    | varInit first' name' sign' last' he' =>
      simp only [Stmt.bare, Stmt.var.injEq, Option.map_some, Option.some.injEq] at hb
      simp only [List.append_assoc, List.cons_append, List.nil_append, List.cons.injEq] at hall
      obtain ⟨rfl, rfl, rfl, hvalue⟩ := hall
      obtain ⟨rfl, rfl, rfl, rfl⟩ := he.unique_before he' hes hes' hb.2.2.2 hvalue
      exact ⟨rfl, rfl, rfl⟩
    | var => simp [Stmt.bare] at hb
    | _ => cases hb
  | _, _, _, _, _, _, _, _, .print first last he, h', hes, hes', hb, hall => by
    cases h' with
    | print first' last' he' =>
      simp only [Stmt.bare, Stmt.print.injEq] at hb
      simp only [List.append_assoc, List.cons_append, List.nil_append, List.cons.injEq] at hall
      obtain ⟨rfl, hvalue⟩ := hall
      obtain ⟨rfl, rfl, rfl, rfl⟩ := he.unique_before he' hes hes' hb.2 hvalue
      exact ⟨rfl, rfl, rfl⟩
    | _ => cases hb
  | _, _, _, _, _, _, _, _, .expr last he, h', hes, hes', hb, hall => by
    cases h' with
    | expr last' he' =>
      simp only [Stmt.bare, Stmt.expr.injEq] at hb
      rw [List.append_assoc, List.append_assoc] at hall
      obtain ⟨rfl, hus, hlast⟩ := he.unique he' hes hes' hb.2 hall
      cases hus
      cases hlast
      exact ⟨rfl, rfl, rfl⟩
    | _ => cases hb
  | _, _, _, _, _, _, _, _, .ret first last, h', _, _, hb, hall => by
    cases h' with
    | ret first' last' =>
      cases hall
      exact ⟨rfl, rfl, rfl⟩
    | _ => cases hb
  | _, _, _, _, _, _, _, _, .retValue first last he, h', hes, hes', hb, hall => by
    cases h' with
    | retValue first' last' he' =>
      simp only [Stmt.bare, Stmt.ret.injEq, Option.map_some, Option.some.injEq] at hb
      simp only [List.append_assoc, List.cons_append, List.nil_append, List.cons.injEq] at hall
      obtain ⟨rfl, hvalue⟩ := hall
      obtain ⟨rfl, rfl, rfl, rfl⟩ := he.unique_before he' hes hes' hb.2 hvalue
      exact ⟨rfl, rfl, rfl⟩
    | _ => cases hb
  | _, _, _, _, _, _, _, _, .block first last hbody, h', hes, hes', hb, hall => by
    cases h' with
    | block first' last' hbody' =>
      simp only [Stmt.bare, Stmt.block.injEq] at hb
      simp only [List.append_assoc, List.cons_append, List.nil_append, List.cons.injEq] at hall
      obtain ⟨rfl, hbody₁⟩ := hall
      obtain ⟨rfl, rfl, hlast⟩ := hbody.unique hbody' hes hes' hb.2 hbody₁
      cases hlast
      exact ⟨rfl, rfl, rfl⟩
    | _ => cases hb
  | _, _, _, _, _, _, _, _, .ifThen first opening closing last hcond hyes, h', hes, hes', hb, hall => by
    cases h' with
    | ifThen first' opening' closing' last' hcond' hyes' =>
      simp only [Stmt.bare, Stmt.ifThen.injEq] at hb
      simp only [List.append_assoc, List.cons_append, List.nil_append, List.cons.injEq] at hall
      rw [List.append_eq_nil_iff] at hes hes'
      obtain ⟨rfl, rfl, hcond₁⟩ := hall
      obtain ⟨rfl, rfl, rfl, hbody₁⟩ := hcond.unique_before hcond' hes.1 hes'.1 hb.2.1 hcond₁
      -- the last token of the statement is the last one of its branch
      obtain ⟨rfl, hlast, rfl⟩ := hyes.unique hyes' hes.2 hes'.2 hb.2.2 (append_last hbody₁)
      obtain ⟨rfl, rfl⟩ := List.append_singleton_inj.mp hlast
      exact ⟨rfl, rfl, rfl⟩
    | _ => cases hb
  | _, _, _, _, _, _, _, _, .while first opening closing last hcond hbody, h', hes, hes', hb, hall => by
    cases h' with
    | «while» first' opening' closing' last' hcond' hbody' =>
      simp only [Stmt.bare, Stmt.while.injEq] at hb
      simp only [List.append_assoc, List.cons_append, List.nil_append, List.cons.injEq] at hall
      rw [List.append_eq_nil_iff] at hes hes'
      obtain ⟨rfl, rfl, hcond₁⟩ := hall
      obtain ⟨rfl, rfl, rfl, hbody₁⟩ := hcond.unique_before hcond' hes.1 hes'.1 hb.2.1 hcond₁
      obtain ⟨rfl, hlast, rfl⟩ := hbody.unique hbody' hes.2 hes'.2 hb.2.2 (append_last hbody₁)
      obtain ⟨rfl, rfl⟩ := List.append_singleton_inj.mp hlast
      exact ⟨rfl, rfl, rfl⟩
    | _ => cases hb
  | _, _, _, _, _, _, _, _, .ifElse first opening closing other last hcond hyes hno, h', hes, hes', hb, hall => by
    cases h' with
    | ifElse first' opening' closing' other' last' hcond' hyes' hno' =>
      simp only [Stmt.bare, Stmt.ifElse.injEq] at hb
      simp only [List.append_assoc, List.cons_append, List.nil_append, List.cons.injEq] at hall
      rw [List.append_eq_nil_iff, List.append_eq_nil_iff] at hes hes'
      obtain ⟨rfl, rfl, hcond₁⟩ := hall
      obtain ⟨rfl, rfl, rfl, hyes₁⟩ := hcond.unique_before hcond' hes.1.1 hes'.1.1 hb.2.1 hcond₁
      obtain ⟨rfl, rfl, hother⟩ := hyes.unique hyes' hes.1.2 hes'.1.2 hb.2.2.1 hyes₁
      obtain ⟨rfl, hno₁⟩ := List.cons.inj hother
      obtain ⟨rfl, hlast, rfl⟩ := hno.unique hno' hes.2 hes'.2 hb.2.2.2 (append_last hno₁)
      obtain ⟨rfl, rfl⟩ := List.append_singleton_inj.mp hlast
      exact ⟨rfl, rfl, rfl⟩
    | _ => cases hb
  | _, _, _, _, _, _, _, _, .func first name bracket opening last es hparams hbody, h', hes, hes', hb, hall => by
    cases h' with
    | func first' name' bracket' opening' last' es' hparams' hbody' =>
      simp only [Stmt.bare, Stmt.func.injEq] at hb
      simp only [List.append_assoc, List.cons_append, List.nil_append, List.cons.injEq] at hall
      rw [List.append_eq_nil_iff] at hes hes'
      obtain ⟨rfl, rfl, rfl, hparams₁⟩ := hall
      obtain ⟨rfl, rfl, hopening⟩ := hparams.unique hparams' hb.2.2.2.1 hparams₁
      obtain ⟨rfl, hbody₁⟩ := List.cons.inj hopening
      obtain ⟨rfl, rfl, hlast⟩ := hbody.unique hbody' hes.2 hes'.2 hb.2.2.2.2 hbody₁
      cases hlast
      exact ⟨rfl, rfl, rfl⟩
    | _ => cases hb
  -- a statement that could not be read comes with an error
  | _, _, _, _, _, _, _, _, .bad .., _, hes, _, _, _ => by simp at hes

theorem Stmt.ReadAllFrom.unique : ∀ {l l' : List Stmt} {us us' rest rest' : List Token} {es es' : List SyntaxError},
    ReadAllFrom l us es → ReadAllFrom l' us' es' → es = [] → es' = [] → bareAll l = bareAll l' →
    us ++ rest = us' ++ rest' → l = l' ∧ us = us' ∧ rest = rest'
  | _, _, _, _, _, _, _, _, .nil, h', _, _, hb, hall => by
    cases h' with
    | nil => exact ⟨rfl, rfl, hall⟩
    | cons => cases hb
  | _, _, _, _, _, _, _, _, .cons h hrest, h', hes, hes', hb, hall => by
    cases h' with
    | nil => cases hb
    | cons h' hrest' =>
      rw [List.append_assoc, List.append_assoc] at hall
      rw [List.append_eq_nil_iff] at hes hes'
      obtain ⟨hx, hl⟩ := List.cons.inj hb
      obtain ⟨rfl, rfl, hall₁⟩ := h.unique h' hes.1 hes'.1 hx hall
      obtain ⟨rfl, rfl, rfl⟩ := hrest.unique hrest' hes.2 hes'.2 hl hall₁
      exact ⟨rfl, rfl, rfl⟩

end

/-! ## What came before -/

namespace Reading

variable {α β : Type} {s start start' : TokenStream}

/-- The two readings have the same outcome. Where they failed at once, the streams are the same behind the next
token. -/
inductive Same : Reading α start → Reading α start' → Prop where
  | done {a : α} {next : TokenStream} {lt : next.left < start.left} {lt' : next.left < start'.left} :
      Same (.done a next lt) (.done a next lt')
  | stuck {f : SyntaxFault} {next : TokenStream} {lt : next.left < start.left} {lt' : next.left < start'.left} :
      Same (.stuck f next lt) (.stuck f next lt')
  | refused {f : SyntaxFault} {next next' : TokenStream} {le : next.left + Bool.toNat false ≤ start.left}
      {le' : next'.left + Bool.toNat false ≤ start'.left} : next.advance = next'.advance →
      Same (.fail f next false le) (.fail f next' false le')

theorem Same.after (r : Reading α s) (lt : s.left < start.left) (lt' : s.left < start'.left) :
    (r.after lt).Same (r.after lt') := by
  cases r with
  | done => exact .done
  | fail => exact .stuck

theorem Same.map {r : Reading α start} {r' : Reading α start'} (h : r.Same r') (f : α → Token → β) :
    (r.map f).Same (r'.map f) := by
  cases h with
  | done => exact .done
  | stuck => exact .stuck
  | refused hnext => exact .refused hnext

theorem Same.follow {r : Reading α start} {r' : Reading α start'}
    {f : α → (s : TokenStream) → s.left < start.left → Reading β start}
    {f' : α → (s : TokenStream) → s.left < start'.left → Reading β start'} (h : r.Same r')
    (hf : ∀ a s lt lt', (f a s lt).Same (f' a s lt')) : (r.follow f).Same (r'.follow f') := by
  cases h with
  | done => exact hf ..
  | stuck => exact .stuck
  | refused hnext => exact .refused hnext

theorem Same.chain (r : Reading α s) {lt : s.left < start.left} {lt' : s.left < start'.left}
    {f : α → (s' : TokenStream) → s'.left < s.left → Reading β start}
    {f' : α → (s' : TokenStream) → s'.left < s.left → Reading β start'}
    (hf : ∀ a s' lt₁, (f a s' lt₁).Same (f' a s' lt₁)) : (r.chain lt f).Same (r.chain lt' f') := by
  cases r with
  | done => exact hf ..
  | fail => exact .stuck

end Reading

namespace TokenStream

variable {s start start' : TokenStream} {t : Token} {rest : List Token}

theorem operators_same (least : Nat) (left : Expr) (lt : s.left < start.left) (lt' : s.left < start'.left) :
    (operators start least left s lt).Same (operators start' least left s lt') := by
  induction hn : s.left using Nat.strongRecOn generalizing left s with
  | ind n ih =>
    subst hn
    by_cases hstop : ahead s.rest ≤ least
    · rw [operators_stop lt hstop, operators_stop lt' hstop]
      exact .done
    · cases hr : s.rest with
      | nil => exact absurd (by rw [hr]; exact Nat.zero_le _) hstop
      | cons op rest =>
        rw [hr, ahead, Nat.not_le] at hstop
        rw [operators_eq lt hr hstop, operators_eq lt' hr hstop]
        refine .chain _ fun right next lt₁ => ih _ ?_ _ _ _ rfl
        have := left_joined left op right next
        have := left_advance_lt hr
        omega

theorem block_same (acc : List Stmt) (lt : s.left < start.left) (lt' : s.left < start'.left) :
    (block start acc s lt).Same (block start' acc s lt') := by
  induction hn : s.left using Nat.strongRecOn generalizing acc s with
  | ind n ih =>
    subst hn
    cases hr : s.rest with
    | nil =>
      rw [block_nil acc lt hr, block_nil acc lt' hr]
      exact .after ..
    | cons t rest =>
      rw [block_cons acc lt hr, block_cons acc lt' hr]
      split
      · exact .done
      · exact ih _ (declaration s t rest hr).2 _ _ _ rfl

def behind (s : TokenStream) (p : Token) : TokenStream := { s with prev := p }

theorem eq_behind {s' : TokenStream} (hrest : s'.rest = s.rest) (hending : s'.ending = s.ending)
    (herrors : s'.errors = s.errors) : s' = s.behind s'.prev := by
  cases s'
  cases hrest
  cases hending
  cases herrors
  rfl

theorem advance_behind (hr : s.rest = t :: rest) (p : Token) : (s.behind p).advance = s.advance := by
  simp [advance, behind, hr]

/-- Where a token is read first, the one before it does not matter. -/
theorem past_same {α : Type} {p : Token} (F : (start s₁ : TokenStream) → s₁.left < start.left → Reading α start)
    (hF : ∀ {start start' s₁ : TokenStream} lt lt', (F start s₁ lt).Same (F start' s₁ lt'))
    (hr : s.rest = t :: rest) (lt : s.advance.left < s.left) (lt' : (s.behind p).advance.left < (s.behind p).left) :
    (F s s.advance lt).Same (F (s.behind p) (s.behind p).advance lt') := by
  revert lt'
  rw [advance_behind hr]
  exact fun lt' => hF lt lt'

theorem reject_same {α : Type} (hr : s.rest = t :: rest) (p : Token) (f : SyntaxFault) :
    (s.reject f : Reading α s).Same ((s.behind p).reject f) :=
  .refused (advance_behind (s := s.report s.current (faultAt s.current f)) hr p).symm

theorem number_same (v : Option Literal) (f : SyntaxFault) (lt : s.left < start.left) (lt' : s.left < start'.left) :
    (number t v f s lt).Same (number t v f s lt') := by
  cases v with
  | some => exact .done
  | none => exact .stuck

theorem operand_same (hr : s.rest = t :: rest) (p : Token) : (operand s).Same (operand (s.behind p)) := by
  have hr' : (s.behind p).rest = t :: rest := hr
  rw [operand_eq hr, operand_eq hr']
  split
  · exact past_same (fun _ s₁ lt => number t _ _ s₁ lt) (number_same _ _) hr _ _
  · exact past_same (fun _ s₁ lt => number t _ _ s₁ lt) (number_same _ _) hr _ _
  · exact past_same (fun _ s₁ lt => .done _ s₁ lt) (fun _ _ => .done) hr _ _
  · exact past_same (fun _ s₁ lt => .done _ s₁ lt) (fun _ _ => .done) hr _ _
  · exact past_same (fun _ s₁ lt => Reading.after ((expr Kind.weakest s₁).bind fun inner s₂ _ =>
      (s₂.expect .rparen .unclosedGroup).map fun close _ => Expr.group ⟨t.pos, ⟨t.pos, close.pos⟩⟩ inner) lt)
      (.after _) hr _ _
  · exact past_same (fun _ s₁ lt => ((expr Kind.signStrength s₁).map _).after lt) (.after _) hr _ _
  · exact past_same (fun _ s₁ lt => ((expr Kind.signStrength s₁).map _).after lt) (.after _) hr _ _
  · exact reject_same hr p _

theorem exprStmt_same (hr : s.rest = t :: rest) (p : Token) : (exprStmt s).Same (exprStmt (s.behind p)) := by
  have hx : (expr Kind.weakest s).Same (expr Kind.weakest (s.behind p)) := by
    rw [expr_eq, expr_eq]
    exact (operand_same hr p).follow fun e next lt lt' => operators_same _ e lt lt'
  exact hx.follow fun e next lt lt' => .after _ lt lt'

theorem statement_same (hr : s.rest = t :: rest) (p : Token) : (statement s).Same (statement (s.behind p)) := by
  have hr' : (s.behind p).rest = t :: rest := hr
  rw [statement_eq hr, statement_eq hr']
  split
  · exact past_same (fun _ s₁ lt => (ifStmt t s₁).after lt) (.after _) hr _ _
  · exact past_same (fun _ s₁ lt => (whileStmt t s₁).after lt) (.after _) hr _ _
  · exact past_same (fun _ s₁ lt => (returnStmt t s₁).after lt) (.after _) hr _ _
  · exact past_same (fun _ s₁ lt => (printStmt t s₁).after lt) (.after _) hr _ _
  · exact past_same (fun start s₁ lt => (block start [] s₁ lt).map _) (fun lt lt' => (block_same [] lt lt').map _)
      hr _ _
  · exact exprStmt_same hr p

theorem attempt_same (hr : s.rest = t :: rest) (p : Token) (lt : s.advance.left < s.left)
    (lt' : (s.behind p).advance.left < (s.behind p).left) : (attempt s t lt).Same (attempt (s.behind p) t lt') := by
  unfold attempt
  split
  · exact past_same (fun _ s₁ lt => (funcDecl t s₁).after lt) (.after _) hr _ _
  · exact past_same (fun _ s₁ lt => (varDecl t s₁).after lt) (.after _) hr _ _
  · exact statement_same hr p

theorem settled_same {r : Reading Stmt start} {r' : Reading Stmt start'} (h : r.Same r') (first : Token) :
    settled first r = settled first r' := by
  cases h with
  | done => rfl
  | stuck => rfl
  | refused hnext => simp [settled, recover, hnext]

/-- Whatever was read before, the declarations that follow are the same, with the same errors. -/
theorem declarations_behind (acc : List Stmt) (s : TokenStream) (p : Token) :
    (declarations acc (s.behind p)).1 = (declarations acc s).1 ∧
      (declarations acc (s.behind p)).2.errors = (declarations acc s).2.errors := by
  cases hr : s.rest with
  | nil =>
    rw [declarations_nil acc hr, declarations_nil acc (s := s.behind p) hr]
    exact ⟨rfl, rfl⟩
  | cons t rest =>
    have hr' : (s.behind p).rest = t :: rest := hr
    have hsame : (declaration (s.behind p) t rest hr').1 = (declaration s t rest hr).1 := by
      rw [declaration_eq, declaration_eq]
      exact (settled_same (attempt_same hr p _ _) t).symm
    rw [declarations_cons acc hr, declarations_cons acc hr', hsame]
    exact ⟨rfl, rfl⟩

theorem declarations_onto (acc : List Stmt) (s : TokenStream) :
    declarations acc s = (acc.reverse ++ (declarations [] s).1, (declarations [] s).2) := by
  induction hn : s.left using Nat.strongRecOn generalizing acc s with
  | ind n ih =>
    subst hn
    cases hr : s.rest with
    | nil =>
      rw [declarations_nil acc hr, declarations_nil [] hr]
      simp
    | cons t rest =>
      have hlt := (declaration s t rest hr).2
      rw [declarations_cons acc hr, declarations_cons [] hr, ih _ hlt (_ :: acc) _ rfl, ih _ hlt [_] _ rfl]
      simp

/-! ## Both texts -/

/-- Statements of the grammar are read back with their tokens in front of anything but an `else`, and reading goes
on behind them. -/
theorem declarations_front {xs : List Stmt} (hp : Stmt.properAll xs = true) {ts tail : List Token}
    (hs : s.rest = ts ++ tail) (hy : Spells ts (Stmt.yieldAll xs)) (htail : NoElse tail) (acc : List Stmt) :
    ∃ ys s', declarations acc s = declarations (ys.reverse ++ acc) s' ∧ Stmt.bareAll ys = Stmt.bareAll xs ∧
      s.Passes s' ts [] ∧ Stmt.ReadAllFrom ys ts [] := by
  induction xs generalizing s ts acc with
  | nil =>
    cases hy.nil_inv
    exact ⟨[], s, rfl, rfl, .refl s, .nil⟩
  | cons x xs ih =>
    have hx := (stmts_read (x :: xs) hp x (.head _)).head hp hs hy htail
    obtain ⟨first, rest, hr, -, hb, he, vs, hvs, hv⟩ := hx
    obtain ⟨us, es, hpass, hread⟩ := s.declaration_course first rest hr
    obtain rfl : es = [] := by
      have := hpass.errors
      rw [he] at this
      simpa using this.symm
    obtain rfl : ts = us ++ vs := by
      have := hpass.rest
      rw [hs, hvs, ← List.append_assoc] at this
      exact List.append_cancel_right this
    simp only [Stmt.properAll, Bool.and_eq_true] at hp
    obtain ⟨ys, s', hd, hbs, hpass', hreads⟩ := ih hp.2 hvs hv ((declaration s first rest hr).1.1 :: acc)
    refine ⟨(declaration s first rest hr).1.1 :: ys, s', ?_, ?_, hpass.trans hpass', .cons hread hreads⟩
    · rw [declarations_cons acc hr, hd]
      simp
    · simp only [Stmt.bareAll, hb, hbs]

/-- The stream of two texts, the first without an end: the stream of the second, with the first in front. -/
theorem ofTokens_front {ts₁ ts₂ : List Token} (h : ∀ t ∈ ts₁, t.kind ≠ .eof) (hne : ts₂ ≠ []) :
    (ofTokens (ts₁ ++ ts₂)).rest = ts₁ ++ (ofTokens ts₂).rest ∧
      (ofTokens (ts₁ ++ ts₂)).ending = (ofTokens ts₂).ending := by
  constructor
  · exact List.takeWhile_append_of_pos (by simpa using h)
  · have hfind : ts₁.find? (·.kind == .eof) = none := by simpa using h
    simp only [ofTokens, List.find?_append, hfind, Option.none_or, List.getLast?_append]
    cases hl : ts₂.getLast? with
    | none => exact absurd (List.getLast?_eq_none_iff.mp hl) hne
    | some => rfl

end TokenStream

theorem parse_body_eq (tokens : List Token) :
    (parse tokens).program.body = (declarations [] (ofTokens tokens)).1 := rfl

/-- A text without errors and another one behind it are read one after the other, if the other does not begin with
an `else`: there are the statements of both, and the errors of the second. -/
theorem parse_append (ts₁ ts₂ : List Token) (hend : ∀ t ∈ ts₁, t.kind ≠ .eof) (h : (parse ts₁).errors = [])
    (helse : ∀ t, ts₂.head? = some t → t.kind ≠ .kwElse) :
    (parse (ts₁ ++ ts₂)).program.body = (parse ts₁).program.body ++ (parse ts₂).program.body ∧
      (parse (ts₁ ++ ts₂)).errors = (parse ts₂).errors := by
  by_cases hne : ts₂ = []
  · have hnil : declarations [] (ofTokens []) = ([], ofTokens []) := declarations_nil [] rfl
    rw [hne, List.append_nil, h, parse_body_eq [], parse_errors [], hnil]
    exact ⟨(List.append_nil _).symm, rfl⟩
  have htake : ts₁.takeWhile (·.kind != .eof) = ts₁ := List.takeWhile_eq_self_iff.mpr (by simpa using hend)
  have hnoelse : NoElse (ofTokens ts₂).rest := by
    intro t rest ht
    obtain ⟨more, hmore⟩ := List.takeWhile_prefix (l := ts₂) (·.kind != .eof)
    refine helse t ?_
    rw [← hmore, show ts₂.takeWhile (·.kind != .eof) = t :: rest from ht]
    rfl
  obtain ⟨hrest, hending⟩ := ofTokens_front hend hne
  obtain ⟨hproper, hspells⟩ := parse_body h
  have hreads := parse_readFrom ts₁
  rw [htake] at hspells hreads
  obtain ⟨ys, s, hdecl, hbare, hpass, hfront⟩ := declarations_front hproper hrest hspells hnoelse []
  obtain ⟨rfl, -⟩ := hfront.unique hreads rfl h hbare (rfl : ts₁ ++ [] = ts₁ ++ [])
  -- behind the first text only the token read last is another one
  have hs : s = (ofTokens ts₂).behind s.prev := by
    refine eq_behind ?_ (hpass.ending.trans hending) ?_
    · exact List.append_cancel_left (hpass.rest.symm.trans hrest)
    · exact Array.toList_eq_nil_iff.mp hpass.errors
  obtain ⟨hsame, herrors⟩ := declarations_behind [] (ofTokens ts₂) s.prev
  rw [parse_body_eq (ts₁ ++ ts₂), parse_body_eq ts₂, parse_errors (ts₁ ++ ts₂), parse_errors ts₂, hdecl,
    declarations_onto, hs, hsame, herrors]
  simp

def openBranch : List Token := (tokenize (txt "fn f(x, y) \x7b return x; \x7d if (a) b = 2;")).dropLast

/-- A text whose first declaration is given up at its first token, and the second one behind it. -/
def brokenText : List Token := tokenize (txt ") + 1; var = 4; print 3;")

theorem brokenText_behind_openBranch :
    (∀ t ∈ openBranch, t.kind ≠ .eof) ∧ (parse openBranch).errors = [] ∧
    (∀ t, brokenText.head? = some t → t.kind ≠ .kwElse) ∧ (parse brokenText).errors.length = 2 ∧
    (parse (openBranch ++ brokenText)).program.body =
      (parse openBranch).program.body ++ (parse brokenText).program.body ∧
    (parse (openBranch ++ brokenText)).errors = (parse brokenText).errors := by
  have hend : openBranch.all (·.kind != .eof) = true := by decide +kernel
  have hhead : brokenText.head?.all (·.kind != .kwElse) = true := by decide +kernel
  replace hend : ∀ t ∈ openBranch, t.kind ≠ .eof := by simpa using hend
  replace hhead : ∀ t, brokenText.head? = some t → t.kind ≠ .kwElse := fun t ht => by simpa [ht] using hhead
  have h : (parse openBranch).errors = [] := by decide +kernel
  exact ⟨hend, h, hhead, by decide +kernel, parse_append openBranch brokenText hend h hhead⟩

end RegCode
