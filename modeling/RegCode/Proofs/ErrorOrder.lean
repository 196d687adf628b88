import RegCode.Build
import RegCode.Proofs.Positions
import RegCode.Proofs.Recovery
import RegCode.Proofs.Untargeted

/-!
# The order of errors

A statement leaves no assignment open: it ends behind a token that is in no expression, or reading goes on at a
boundary if it is given up. So over a whole program two errors are in the wrong order exactly if both are of
assignments without a target and one of these is in the value of the other.
-/

namespace RegCode

open TokenStream

namespace TokenStream

variable {α : Type} {s s₁ start : TokenStream} {t : Token} {us : List Token} {ms : List Mark} {k : Kind}
  {f : SyntaxFault}

/-! ## Statements -/

theorem closed_expr_orderly (g : Expr → Token → Token → α) (hf : f ≠ .badTarget)
    (hk : k = .rparen ∨ k.inExpression = false) (s : TokenStream) :
    ((expr Kind.weakest s).bind fun e s₁ _ => (s₁.expect k f).map (g e)).Orderly s.Tidy := by
  refine (expr_orderly (Nat.le_refl _) s).follow fun e s₁ lt h => ?_
  obtain ⟨us, ms, h, -, -⟩ := h
  refine (h.expect hf hk lt).mono ?_
  rintro next ⟨-, -, -, hn, hc⟩
  exact ⟨ms, hn, hc⟩

theorem skip?_tidy {next : TokenStream} {lt : next.left < s.left} (h : s.skip? k = some ⟨next, lt⟩) :
    s.Tidy next := by
  obtain ⟨t, -, hp⟩ := passes_skip? h
  exact hp.tidy

theorem finish_orderly (first : Token) (hf : f ≠ .badTarget) (node : Place → Stmt) (s : TokenStream) :
    (finish first f node s).Orderly s.Tidy :=
  (s.expect_orderly _ hf).map _

theorem varDecl_orderly (first : Token) (s : TokenStream) : (varDecl first s).Orderly s.Tidy := by
  unfold varDecl
  refine (s.expect_orderly _ SyntaxFault.noConfusion).bind fun name s₁ _ => ?_
  dsimp only
  split
  · rename_i next lt hskip
    have hs := skip?_tidy hskip
    exact (closed_expr_orderly _ SyntaxFault.noConfusion (.inr rfl) next).after_tidy hs lt
  · exact finish_orderly first SyntaxFault.noConfusion _ s₁

theorem printStmt_orderly (first : Token) (s : TokenStream) : (printStmt first s).Orderly s.Tidy :=
  closed_expr_orderly _ SyntaxFault.noConfusion (.inr rfl) s

theorem returnStmt_orderly (first : Token) (s : TokenStream) : (returnStmt first s).Orderly s.Tidy := by
  unfold returnStmt
  split
  · exact finish_orderly first SyntaxFault.noConfusion _ s
  · exact closed_expr_orderly _ SyntaxFault.noConfusion (.inr rfl) s

theorem exprStmt_orderly (s : TokenStream) : (exprStmt s).Orderly s.Tidy :=
  closed_expr_orderly _ SyntaxFault.noConfusion (.inr rfl) s

theorem condition_orderly {opening closing : SyntaxFault} (ho : opening ≠ .badTarget) (hc : closing ≠ .badTarget)
    (s : TokenStream) : (condition opening closing s).Orderly s.Tidy :=
  (s.expect_orderly _ ho).bind fun _ s₁ _ => closed_expr_orderly _ hc (.inl rfl) s₁

theorem counted_tidy (acc : List Param) (s : TokenStream) : s.Tidy (counted acc s) := by
  unfold counted
  split
  · exact (Passes.refl s).tidy
  · exact s.tidy_refuse SyntaxFault.noConfusion

theorem parameters_orderly (acc : List Param) (hs : start.Tidy s) (lt : s.left < start.left) :
    (parameters start acc s lt).Orderly start.Tidy := by
  induction hn : s.left using Nat.strongRecOn generalizing acc s with
  | ind n ih =>
    subst hn
    have hc := left_counted acc s
    rw [parameters_eq rfl lt (hc ▸ lt)]
    have hcounted := hs.trans (counted_tidy acc s)
    refine ((counted acc s).expect_orderly _ SyntaxFault.noConfusion).chain hcounted fun t s₁ lt₁ h => ?_
    have hs₁ := hcounted.trans h
    unfold moreParameters
    split
    · rename_i next lt₂ hskip
      exact ih _ (by omega) _ (hs₁.trans (skip?_tidy hskip)) _ rfl
    · exact ((s₁.expect_orderly _ SyntaxFault.noConfusion).map _).after_tidy hs₁ _

theorem parameterList_orderly (s : TokenStream) : (parameterList s).Orderly s.Tidy := by
  refine (s.expect_orderly _ SyntaxFault.noConfusion).follow fun bracket s₁ lt h => ?_
  split
  · rename_i next lt' hskip
    exact h.trans (skip?_tidy hskip)
  · exact parameters_orderly [] h lt

/-! ## Declarations -/

def StatementOrderlyBelow (n : Nat) : Prop := ∀ s : TokenStream, s.left < n → (statement s).Orderly s.Tidy

def BlockOrderlyBelow (n : Nat) : Prop :=
  ∀ (start s : TokenStream) (acc : List Stmt) (lt : s.left < start.left), s.left < n → start.Tidy s →
    (block start acc s lt).Orderly start.Tidy

theorem ifStmt_orderly {n : Nat} (ih : StatementOrderlyBelow n) (first : Token) (hs : s.left ≤ n) :
    (ifStmt first s).Orderly s.Tidy := by
  rw [ifStmt_eq]
  refine (condition_orderly SyntaxFault.noConfusion SyntaxFault.noConfusion s).bind fun cond s₁ lt₁ => ?_
  refine (ih s₁ (by omega)).follow fun yes s₂ lt₂ h => ?_
  unfold elseBranch
  split
  · rename_i next lt₃ hskip
    have hnext := h.trans (skip?_tidy hskip)
    exact ((ih next (by omega)).map _).after_tidy hnext _
  · exact h

theorem whileStmt_orderly {n : Nat} (ih : StatementOrderlyBelow n) (first : Token) (hs : s.left ≤ n) :
    (whileStmt first s).Orderly s.Tidy := by
  rw [whileStmt]
  refine (condition_orderly SyntaxFault.noConfusion SyntaxFault.noConfusion s).bind fun cond s₁ lt₁ => ?_
  exact (ih s₁ (by omega)).map _

theorem funcDecl_orderly {n : Nat} (ih : BlockOrderlyBelow n) (first : Token) (hs : s.left ≤ n) :
    (funcDecl first s).Orderly s.Tidy := by
  rw [funcDecl]
  refine (s.expect_orderly _ SyntaxFault.noConfusion).bind fun name s₁ lt₁ => ?_
  refine (parameterList_orderly s₁).bind fun params s₂ lt₂ => ?_
  refine (s₂.expect_orderly _ SyntaxFault.noConfusion).follow fun opening s₃ lt₃ h => ?_
  exact (ih s₂ s₃ [] lt₃ (by omega) h).map _

theorem statement_orderly (ihS : StatementOrderlyBelow s.left) (ihB : BlockOrderlyBelow s.left) :
    (statement s).Orderly s.Tidy := by
  cases hr : s.rest with
  | nil =>
    rw [statement_nil hr]
    exact s.exprStmt_orderly
  | cons t rest =>
    have hs := (passes_advance hr).tidy
    have hlt := left_advance_lt hr
    rw [statement_eq hr]
    split
    · exact (ifStmt_orderly ihS t (Nat.le_of_lt hlt)).after_tidy hs hlt
    · exact (whileStmt_orderly ihS t (Nat.le_of_lt hlt)).after_tidy hs hlt
    · exact (returnStmt_orderly t _).after_tidy hs hlt
    · exact (printStmt_orderly t _).after_tidy hs hlt
    · exact (ihB s _ [] hlt hlt hs).map _
    · exact s.exprStmt_orderly

theorem attempt_orderly {rest : List Token} (hS : StatementOrderlyBelow (s.left + 1))
    (ihB : BlockOrderlyBelow s.left) (hr : s.rest = t :: rest) :
    (attempt s t (left_advance_lt hr)).Orderly s.Tidy := by
  have hs := (passes_advance hr).tidy
  have hlt := left_advance_lt hr
  unfold attempt
  split
  · exact (funcDecl_orderly ihB t (Nat.le_of_lt hlt)).after_tidy hs hlt
  · exact (varDecl_orderly t _).after_tidy hs hlt
  · exact hS s (Nat.lt_succ_self _)

/-- Behind a semicolon, in front of a statement or at the end. No value goes on over such a place. -/
def AtBoundary (s : TokenStream) : Prop :=
  s.prev.kind = .semicolon ∨ ∀ t ∈ s.rest.head?, t.kind.startsStatement = true

theorem resume_atBoundary (s : TokenStream) : AtBoundary s.resume := by
  fun_induction resume s with
  | case1 s hr => exact .inr (by simp [hr])
  | case2 s t rest hr hstop => exact hstop.imp_right fun ht => by simpa [hr] using ht
  | case3 s t rest _ _ ih => exact ih

theorem recover_atBoundary (moved : Bool) (s : TokenStream) : AtBoundary (s.recover moved) := by
  unfold recover
  split
  · exact s.resume_atBoundary
  · exact s.advance.resume_atBoundary

theorem Noted.closed_of_boundary {es : List SyntaxError} (h : s.Noted s₁ ms) (hp : s.Passes s₁ us es)
    (hb : AtBoundary s₁) : ∀ m ∈ ms, m.Closed s₁.rest := by
  intro m hm
  by_cases hf : m.error.fault = .badTarget
  · obtain ⟨-, a, op, b, hus, hmrest, hk⟩ := h.split hm hf hp.rest
    rcases hb with hprev | hhead
    · -- the last token taken is the semicolon, and it is behind the assignment
      refine Mark.closed_of_end hmrest fun hwithin => ?_
      rw [hp.prev, hus, List.getLast?_append_cons] at hprev
      rcases List.eq_nil_or_concat' b with rfl | ⟨front, last, rfl⟩
      · rw [List.getLast?_singleton, Option.getD_some, hk] at hprev
        cases hprev
      · rw [← List.cons_append, List.getLast?_concat, Option.getD_some] at hprev
        have hin := hwithin.inExpression
        rw [hprev] at hin
        cases hin
    · exact Mark.closed_of_head hmrest fun t ht => Kind.not_inExpression_of_starts (hhead t ht)
  · exact Mark.closed_of_fault hf

/-- Behind a declaration that is given up nothing is left open. -/
theorem settled_tidy {r : Reading Stmt s} {Q : Stmt → List Token → List SyntaxError → Prop} (h : r.Orderly s.Tidy)
    (hcourse : r.Course Q) (first : Token) : s.Tidy (settled first r).2 := by
  cases r with
  | done st next lt => exact h
  | fail f next moved le =>
    obtain ⟨ms, hn⟩ := h
    obtain ⟨us, es, e, hp, -, -⟩ := hcourse
    obtain ⟨vs, hp'⟩ := next.passes_recover moved
    have hnoted := hn.pass hp'
    exact ⟨ms, hnoted, hnoted.closed_of_boundary (hp.trans hp') (next.recover_atBoundary moved)⟩

def DeclarationOrderly (s : TokenStream) : Prop :=
  ∀ (first : Token) (rest : List Token) (h : s.rest = first :: rest), s.Tidy (declaration s first rest h).1.2

theorem block_orderly (hD : DeclarationOrderly s) (ihB : BlockOrderlyBelow s.left) (acc : List Stmt)
    (hs : start.Tidy s) (lt : s.left < start.left) : (block start acc s lt).Orderly start.Tidy := by
  cases hr : s.rest with
  | nil =>
    rw [block_nil acc lt hr]
    exact (s.reject_orderly SyntaxFault.noConfusion).after_tidy hs lt
  | cons t rest =>
    rw [block_cons acc lt hr]
    split
    · exact hs.trans (passes_advance hr).tidy
    · exact ihB start _ _ _ (declaration s t rest hr).2 (hs.trans (hD t rest hr))

theorem statement_block_orderly (n : Nat) : StatementOrderlyBelow n ∧
    (∀ s : TokenStream, s.left < n → DeclarationOrderly s) ∧ BlockOrderlyBelow n := by
  induction n with
  | zero =>
    refine ⟨fun s hs => absurd hs (Nat.not_lt_zero _), fun s hs => absurd hs (Nat.not_lt_zero _), ?_⟩
    exact fun _ s _ _ hs => absurd hs (Nat.not_lt_zero _)
  | succ n ih =>
    obtain ⟨ihS, -, ihB⟩ := ih
    have hB {m : Nat} (hm : m ≤ n) : BlockOrderlyBelow m :=
      fun start s₁ acc lt hlt => ihB start s₁ acc lt (by omega)
    have hS : StatementOrderlyBelow (n + 1) := fun s hs =>
      statement_orderly (fun s₁ hlt => ihS s₁ (by omega)) (hB (by omega))
    have hD : ∀ s : TokenStream, s.left < n + 1 → DeclarationOrderly s := by
      intro s hs first rest hr
      rw [declaration_eq]
      exact settled_tidy (attempt_orderly (fun s₁ hlt => hS s₁ (by omega)) (hB (by omega)) hr)
        (attempt_reads hr) first
    exact ⟨hS, hD, fun start s acc lt hs htidy => block_orderly (hD s hs) (hB (by omega)) acc htidy lt⟩

theorem declarations_tidy (acc : List Stmt) (s : TokenStream) : s.Tidy (declarations acc s).2 := by
  induction hn : s.left using Nat.strongRecOn generalizing acc s with
  | ind n ih =>
    subst hn
    cases hr : s.rest with
    | nil =>
      rw [declarations_nil acc hr]
      exact (Passes.refl s).tidy
    | cons t rest =>
      rw [declarations_cons acc hr]
      have hd := (statement_block_orderly (s.left + 1)).2.1 s (Nat.lt_succ_self _) t rest hr
      exact hd.trans (ih _ (declaration s t rest hr).2 (_ :: acc) _ rfl)

end TokenStream

/-! ## Offsets -/

section
variable {tokens x y : List Token} {t u op : Token} {s : TokenStream} {m : Mark} {ms : List Mark}

theorem parse_noted (tokens : List Token) :
    ∃ s ms, (ofTokens tokens).Noted s ms ∧ (parse tokens).errors = ms.map (·.error) := by
  obtain ⟨ms, h, -⟩ := declarations_tidy [] (ofTokens tokens)
  exact ⟨_, ms, h, h.errors⟩

theorem withEnd_offsets (h : Increasing tokens) :
    (withEnd tokens).Pairwise fun t u => t.pos.offset ≤ u.pos.offset := by
  have hle : tokens.Pairwise fun t u => t.pos.offset ≤ u.pos.offset := h.imp Int.le_of_lt
  unfold withEnd
  split
  · exact List.pairwise_singleton ..
  · rename_i last hlast
    split
    · exact hle
    · obtain ⟨front, rfl⟩ := List.getLast?_eq_some_iff.mp hlast
      refine List.pairwise_append.mpr ⟨hle, List.pairwise_singleton .., fun t ht u hu => ?_⟩
      cases List.mem_singleton.mp hu
      rcases List.mem_append.mp ht with ht | ht
      · exact (List.pairwise_append.mp hle).2.2 t ht last (by simp)
      · cases List.mem_singleton.mp ht
        exact Int.le_refl _

/-- The offsets go up from place to place, as far as the end. -/
theorem offset_headD_le (h : Increasing tokens) (hx : x <:+ (ofTokens tokens).rest) (hy : y <:+ x) :
    (x.headD (ofTokens tokens).ending).pos.offset ≤ (y.headD (ofTokens tokens).ending).pos.offset := by
  cases x with
  | nil =>
    cases List.suffix_nil.mp hy
    exact Int.le_refl _
  | cons t x =>
    obtain ⟨more, hend⟩ := withEnd_eq tokens
    have hall := withEnd_offsets h
    obtain ⟨a, ha⟩ := hx
    obtain ⟨b, hb⟩ := hy
    rw [hend, ← ha, List.append_assoc] at hall
    have hle := (List.pairwise_append.mp hall).2.1
    rw [List.cons_append, List.pairwise_cons] at hle
    cases y with
    | nil => exact hle.1 _ (by simp)
    | cons u y =>
      have hu : u ∈ t :: x := hb ▸ by simp
      rcases List.mem_cons.mp hu with rfl | hu
      · exact Int.le_refl _
      · exact hle.1 u (by simp [hu])

theorem Increasing.suffix_eq (h : Increasing tokens) (hx : t :: x <:+ tokens) (hy : u :: y <:+ tokens)
    (hpos : t.pos = u.pos) : t :: x = u :: y := by
  have hbehind {t u : Token} {x y : List Token} (hpos : t.pos = u.pos) (hy : u :: y <:+ tokens) :
      ¬ t :: x <:+ y := by
    intro hs
    have hlt := (List.pairwise_cons.mp (h.sublist hy.sublist)).1 t (hs.subset (by simp))
    rw [hpos] at hlt
    exact Int.lt_irrefl _ hlt
  rcases List.suffix_or_suffix_of_suffix hx hy with hs | hs
  · exact (List.suffix_cons_iff.mp hs).resolve_right (hbehind hpos hy)
  · exact ((List.suffix_cons_iff.mp hs).resolve_right (hbehind hpos.symm hx)).symm

theorem Increasing.eq_of_pos (h : Increasing tokens) (ht : t ∈ tokens)
    (hu : u ∈ tokens) (hpos : t.pos = u.pos) : t = u := by
  obtain ⟨a, x, ha⟩ := List.append_of_mem ht
  obtain ⟨b, y, hb⟩ := List.append_of_mem hu
  exact (List.cons.inj (h.suffix_eq ⟨a, ha.symm⟩ ⟨b, hb.symm⟩ hpos)).1

/-- An assignment without a target is marked at its own place. -/
theorem TokenStream.Noted.rest_eq (h : (ofTokens tokens).Noted s ms) (hinc : Increasing tokens) (hm : m ∈ ms)
    (he : m.error = .atToken op .badTarget) (hop : op :: y <:+ tokens) :
    m.Untargeted ∧ m.rest ++ tokens.dropWhile (·.kind != .eof) = op :: y := by
  obtain ⟨hu, -⟩ := h.targets m hm (by rw [he]; rfl)
  obtain ⟨-, hs, f, hf⟩ := h.located m hm
  refine ⟨hu, ?_⟩
  obtain ⟨-, t, tail, hrest, -⟩ := hu
  have hsuffix : m.rest ++ tokens.dropWhile (·.kind != .eof) <:+ tokens := by
    obtain ⟨a, ha⟩ := hs
    refine ⟨a, ?_⟩
    rw [← List.append_assoc, ha]
    exact List.takeWhile_append_dropWhile
  rw [hrest] at hf hsuffix ⊢
  exact hinc.suffix_eq hsuffix hop (congrArg SyntaxError.pos (hf.symm.trans he))

end

/-- The errors are in the order of the places they are at. -/
def InOrder (errors : List SyntaxError) : Prop := errors.Pairwise fun e e' => e.pos.offset ≤ e'.pos.offset

/-- One assignment without a target stands in the value of another. -/
def NestsUntargeted (tokens : List Token) (errors : List SyntaxError) : Prop :=
  ∃ front op mid op' rest, tokens = front ++ op :: (mid ++ op' :: rest) ∧ WithinValue mid ∧
    .atToken op .badTarget ∈ errors ∧ .atToken op' .badTarget ∈ errors

section
variable {tokens : List Token}

theorem not_nests_of_inOrder (h : Increasing tokens) (ho : InOrder (parse tokens).errors) :
    ¬ NestsUntargeted tokens (parse tokens).errors := by
  rintro ⟨front, op, mid, op', rest, heq, hmid, he, he'⟩
  obtain ⟨s, ms, hn, herr⟩ := parse_noted tokens
  rw [herr] at ho he he'
  obtain ⟨m, hm, he⟩ := List.mem_map.mp he
  obtain ⟨m', hm', he'⟩ := List.mem_map.mp he'
  obtain ⟨hu, hrest⟩ := hn.rest_eq h hm he ⟨front, heq.symm⟩
  obtain ⟨hu', hrest'⟩ := hn.rest_eq h hm' he' (y := rest) ⟨front ++ op :: mid, by simp [heq]⟩
  have hcovers : m.Covers m' := by
    refine ⟨hu, hu', op, mid, ?_, hmid⟩
    rw [← hrest', ← List.append_assoc, ← List.cons_append] at hrest
    exact List.append_cancel_right hrest
  have hlt : m.error.pos.offset < m'.error.pos.offset := by
    rw [he, he']
    have := (List.pairwise_append.mp (heq ▸ h : Increasing (front ++ op :: (mid ++ op' :: rest)))).2.1
    exact (List.pairwise_cons.mp this).1 op' (by simp)
  obtain ⟨front, behind, rfl⟩ := List.append_of_mem hm
  obtain ⟨-, hbehind, hfront⟩ := List.pairwise_append.mp (hn.order.and (List.pairwise_map.mp ho))
  rcases List.mem_append.mp hm' with hm' | hm'
  · exact absurd (hfront m' hm' m (by simp)).2 (Int.not_le.mpr hlt)
  rcases List.mem_cons.mp hm' with rfl | hm'
  · exact Int.lt_irrefl _ hlt
  · rcases ((List.pairwise_cons.mp hbehind).1 m' hm').1 with hc | ⟨-, hc⟩
    · exact Nat.lt_asymm hc.length_lt hcovers.length_lt
    · exact hc hcovers

theorem errors_before (h : Increasing tokens) {s : TokenStream} {ms : List Mark}
    (hn : (ofTokens tokens).Noted s ms) :
    ms.Pairwise fun m m' => m'.Covers m ∨ m.error.pos.offset ≤ m'.error.pos.offset := by
  refine hn.order.imp_of_mem fun {m m'} hm hm' hb => hb.imp_right fun hs => ?_
  obtain ⟨-, hrest, f, hf⟩ := hn.located m hm
  obtain ⟨-, -, f', hf'⟩ := hn.located m' hm'
  rw [hf, hf']
  exact offset_headD_le h hrest hs.1

theorem inOrder_of_not_nests (h : Increasing tokens) (hnests : ¬ NestsUntargeted tokens (parse tokens).errors) :
    InOrder (parse tokens).errors := by
  obtain ⟨s, ms, hn, herr⟩ := parse_noted tokens
  rw [herr] at hnests ⊢
  refine List.pairwise_map.mpr ((errors_before h hn).imp_of_mem fun {m m'} hm hm' hb =>
    hb.resolve_left fun hc => ?_)
  have herror {m : Mark} {op : Token} {tail : List Token} (hm : m ∈ ms) (hu : m.Untargeted)
    (hr : m.rest = op :: tail) :
      SyntaxError.atToken op .badTarget ∈ ms.map (·.error) := by
    obtain ⟨-, -, f, hf⟩ := hn.located m hm
    have hfault : f = .badTarget := by
      have := hu.1
      rwa [hf] at this
    rw [hr, hfault] at hf
    exact List.mem_map.mpr ⟨m, hm, hf⟩
  obtain ⟨hu', hu, op, mid, hrest, hmid⟩ := hc
  obtain ⟨op', tail, hop', -⟩ := hu.2
  obtain ⟨-, ⟨front, hfront⟩, -⟩ := hn.located m' hm'
  refine hnests ⟨front, op, mid, op', tail ++ tokens.dropWhile (·.kind != .eof), ?_, hmid, herror hm' hu' hrest,
    herror hm hu hop'⟩
  have htokens : (ofTokens tokens).rest ++ tokens.dropWhile (·.kind != .eof) = tokens :=
    List.takeWhile_append_dropWhile
  rw [← hfront, hrest, hop'] at htokens
  simpa using htokens.symm

/-- What is true of the order of errors: they are in order unless an assignment without a target stands in the value
of another, and only such errors change places. -/
structure OrderedButNested (tokens : List Token) (errors : List SyntaxError) : Prop where
  inOrder_iff : InOrder errors ↔ ¬ NestsUntargeted tokens errors
  apart : errors.Pairwise fun e e' =>
    e.pos.offset ≤ e'.pos.offset ∨ e.fault = .badTarget ∧ e'.fault = .badTarget

theorem parse_ordered (h : Increasing tokens) : OrderedButNested tokens (parse tokens).errors where
  inOrder_iff := ⟨not_nests_of_inOrder h, inOrder_of_not_nests h⟩
  apart := by
    obtain ⟨s, ms, hn, herr⟩ := parse_noted tokens
    rw [herr, List.pairwise_map]
    refine (errors_before h hn).imp fun {m m'} hb => hb.symm.imp_right fun hc => ?_
    exact ⟨hc.2.1.1, hc.1.1⟩

end

theorem check_error_iff {source : Bytes} {errors : List SyntaxError} :
    check source = .error (.parse errors) ↔ (parse (tokenize source)).errors = errors ∧ errors ≠ [] := by
  unfold check readProgram parseSource
  cases hp : (parse (tokenize source)).errors with
  | nil => simp +contextual [hp, eq_comm]
  | cons e es => simp +contextual [hp, eq_comm]

/-- The errors of tokens whose offsets go up, and so those that checking a source gives, are in the order of their
places exactly if no assignment without a target stands in the value of another. Only errors of such assignments are
ever out of order. -/
theorem errors_in_order_iff (tokens : List Token) (h : Increasing tokens) (source : Bytes) :
    OrderedButNested tokens (parse tokens).errors ∧
    ∀ errors, check source = .error (.parse errors) → OrderedButNested (tokenize source) errors := by
  refine ⟨parse_ordered h, fun errors hcheck => ?_⟩
  rw [← (check_error_iff.mp hcheck).1]
  exact parse_ordered (tokenize_increasing source)

/-- An assignment to a number, in whose value another number is assigned to. -/
def assignedTwice : Bytes := txt "1 = 2 = 3;"

theorem assignedTwice_out_of_order : Increasing (tokenize assignedTwice) ∧ ∃ errors,
    check assignedTwice = .error (.parse errors) ∧ errors.map (·.pos.offset) = [6, 2] ∧ ¬ InOrder errors ∧
      NestsUntargeted (tokenize assignedTwice) errors := by
  have hinc := tokenize_increasing assignedTwice
  have hoffsets : (parse (tokenize assignedTwice)).errors.map (·.pos.offset) = [6, 2] := by decide +kernel
  have hcheck : check assignedTwice = .error (.parse (parse (tokenize assignedTwice)).errors) := by
    refine check_error_iff.mpr ⟨rfl, fun hnil => ?_⟩
    rw [hnil] at hoffsets
    cases hoffsets
  have hnot : ¬ InOrder (parse (tokenize assignedTwice)).errors := by
    intro h
    have hpairs := List.pairwise_map.mpr h
    rw [hoffsets] at hpairs
    exact absurd hpairs (by decide)
  obtain ⟨-, hchecked⟩ := errors_in_order_iff _ hinc assignedTwice
  refine ⟨hinc, _, hcheck, hoffsets, hnot, ?_⟩
  exact Classical.not_not.mp fun h => hnot ((hchecked _ hcheck).inOrder_iff.mpr h)

end RegCode
