import Mathlib.Data.List.TakeWhile
import Mathlib.Logic.Relation
import Mathlib.Order.Bounds.Defs
import RegCode.Proofs.Course

/-!
# Recovery

Streams say nothing of indices, but a stream that reading has come to stands behind as many tokens as were taken,
and the tokens it shows are those of the list at that index and in front of it. A declaration that is given up goes
on at the first boundary behind the place where that happened, and at least one token behind its own beginning. So
every declaration takes a token, whichever way it ends, and the calls that reading makes come to an end.
-/

namespace RegCode

namespace TokenStream

/-! ## Indices -/

/-- The tokens with an end behind them, unless the last one is an end. -/
def withEnd (tokens : List Token) : List Token :=
  match tokens.getLast? with
  | none => [⟨.eof, [], {}⟩]
  | some last => if last.kind = .eof then tokens else tokens ++ [⟨.eof, [], last.pos⟩]

/-- Reading the tokens has come to `s` and taken `i` of them. -/
def At (tokens : List Token) (i : Nat) (s : TokenStream) : Prop :=
  ∃ used new, (ofTokens tokens).Passes s used new ∧ used.length = i

section
variable {tokens us : List Token} {i : Nat} {s s' : TokenStream} {es : List SyntaxError}

theorem withEnd_eq (tokens : List Token) :
    ∃ more, withEnd tokens = (ofTokens tokens).rest ++ (ofTokens tokens).ending :: more := by
  by_cases hmem : ∃ t ∈ tokens, t.kind = .eof
  · obtain ⟨eof, hfind⟩ := Option.isSome_iff_exists.mp
      (show (tokens.find? (·.kind == .eof)).isSome = true by simpa using hmem)
    obtain ⟨hk, front, more, rfl, hfront⟩ := List.find?_eq_some_iff_append.mp hfind
    rw [ofTokens_cons (by simpa using hfront) (by simpa using hk)]
    unfold withEnd
    split
    · rename_i hlast
      simp at hlast
    · split
      · exact ⟨more, rfl⟩
      · rename_i last _ _
        exact ⟨more ++ [⟨.eof, [], last.pos⟩], by simp⟩
  · have hne : ∀ t ∈ tokens, t.kind ≠ .eof := fun t ht hk => hmem ⟨t, ht, hk⟩
    have hrest : (ofTokens tokens).rest = tokens := List.takeWhile_eq_self_iff.mpr (by simpa using hne)
    have hfind : tokens.find? (·.kind == .eof) = none := by simpa using hne
    have hending : (ofTokens tokens).ending = ⟨.eof, [], (tokens.getLast?.map (·.pos)).getD {}⟩ := by
      simp only [ofTokens, hfind, Option.getD_none]
    rw [hrest, hending]
    refine ⟨[], ?_⟩
    unfold withEnd
    cases hlast : tokens.getLast? with
    | none =>
      rw [List.getLast?_eq_none_iff.mp hlast]
      rfl
    | some last => simp [hne last (List.mem_of_getLast? hlast)]

theorem ofTokens_kinds (tokens : List Token) :
    (∀ t ∈ (ofTokens tokens).rest, t.kind ≠ .eof) ∧ (ofTokens tokens).ending.kind = .eof := by
  constructor
  · intro t ht
    simpa using List.mem_takeWhile_imp ht
  · change ((tokens.find? (·.kind == .eof)).getD _).kind = .eof
    cases hfind : tokens.find? (·.kind == .eof) with
    | none => rfl
    | some t => simpa using List.find?_some hfind

theorem At.start (tokens : List Token) : At tokens 0 (ofTokens tokens) := ⟨[], [], .refl _, rfl⟩

theorem At.passes (h : At tokens i s) (hp : s.Passes s' us es) : At tokens (i + us.length) s' := by
  obtain ⟨used, new, hu, rfl⟩ := h
  exact ⟨_, _, hu.trans hp, List.length_append⟩

theorem At.unique {j : Nat} (h : At tokens i s) (h' : At tokens j s) : i = j := by
  obtain ⟨used, new, hp, rfl⟩ := h
  obtain ⟨used', new', hp', rfl⟩ := h'
  have := hp.left.symm.trans hp'.left
  omega

theorem At.current (h : At tokens i s) : (withEnd tokens)[i]? = some s.current := by
  obtain ⟨used, new, hp, rfl⟩ := h
  obtain ⟨more, hmore⟩ := withEnd_eq tokens
  rw [hmore, hp.rest, List.append_assoc, List.getElem?_append_right (Nat.le_refl _), Nat.sub_self,
    TokenStream.current, hp.ending]
  cases s.rest <;> rfl

theorem At.prev (h : At tokens i s) : (withEnd tokens)[i - 1]? = some s.prev := by
  obtain ⟨used, new, hp, rfl⟩ := h
  obtain ⟨more, hmore⟩ := withEnd_eq tokens
  rw [hp.prev]
  rcases List.eq_nil_or_concat' used with rfl | ⟨us, t, rfl⟩
  -- nothing was taken, and the token in front is the first one itself
  · exact (At.start tokens).current
  · rw [hmore, hp.rest, List.getLast?_concat]
    simp

theorem At.ended_iff (h : At tokens i s) : s.current.kind = .eof ↔ s.rest = [] := by
  obtain ⟨used, new, hp, -⟩ := h
  obtain ⟨hrest, hending⟩ := ofTokens_kinds tokens
  rw [hp.rest] at hrest
  cases hr : s.rest with
  | nil => simpa [TokenStream.current, hr, hp.ending] using hending
  | cons t rest =>
    have ht : t.kind ≠ .eof := hrest t (by simp [hr])
    simpa [TokenStream.current, hr] using ht

end

/-! ## Boundaries -/

/-- Where reading can start again: at an end, at one of the words that begin a declaration or a statement, or behind
a semicolon. -/
def Boundary (ts : List Token) (r : Nat) : Prop :=
  ∃ t, ts[r]? = some t ∧ (t.kind = .eof ∨ t.kind ∈ [.kwFn, .kwVar, .kwIf, .kwWhile, .kwPrint, .kwReturn] ∨
    ∃ u, ts[r - 1]? = some u ∧ u.kind = .semicolon)

theorem startsStatement_iff {k : Kind} :
    k.startsStatement = true ↔ k ∈ [.kwFn, .kwVar, .kwIf, .kwWhile, .kwPrint, .kwReturn] := by
  cases k <;> simp [Kind.startsStatement]

section
variable {tokens : List Token} {i : Nat} {s : TokenStream}

theorem At.boundary_iff (h : At tokens i s) : Boundary (withEnd tokens) i ↔
    s.rest = [] ∨ s.current.kind.startsStatement = true ∨ s.prev.kind = .semicolon := by
  unfold Boundary
  rw [h.current, h.prev, ← h.ended_iff, startsStatement_iff]
  simp

theorem resume_least (h : At tokens i s) :
    ∃ r, At tokens r s.resume ∧ IsLeast {j | i ≤ j ∧ Boundary (withEnd tokens) j} r := by
  fun_induction resume s generalizing i with
  | case1 s hr => exact ⟨i, h, ⟨Nat.le_refl _, h.boundary_iff.mpr (.inl hr)⟩, fun j hj => hj.1⟩
  | case2 s t rest hr hstop =>
    have hcur : s.current = t := by rw [current, hr]; rfl
    have hb : Boundary (withEnd tokens) i := h.boundary_iff.mpr (.inr (hcur ▸ hstop.symm))
    exact ⟨i, h, ⟨Nat.le_refl _, hb⟩, fun j hj => hj.1⟩
  | case3 s t rest hr hstop ih =>
    obtain ⟨r, hat, ⟨hle, hb⟩, hleast⟩ := ih (h.passes (passes_advance hr))
    refine ⟨r, hat, ⟨Nat.le_of_succ_le hle, hb⟩, ?_⟩
    rintro j ⟨hij, hj⟩
    refine hleast ⟨?_, hj⟩
    -- there is none at `i`
    rcases Nat.lt_or_eq_of_le hij with hlt | rfl
    · exact hlt
    · have hcur : s.current = t := by rw [current, hr]; rfl
      rcases h.boundary_iff.mp hj with hnil | hj
      · rw [hr] at hnil
        cases hnil
      · exact absurd (hcur ▸ hj.symm) hstop

end

/-- What becomes of a declaration at index `i`, begun at the stream `s` and given up at the stream `next` with index
`f`: it is kept as `st`, and reading goes on at index `r`. -/
structure Resumes (tokens : List Token) (i f r : Nat) (s next : TokenStream) (st : Stmt) : Prop where
  at_fault : At tokens f next
  least : IsLeast {j | max f (i + 1) ≤ j ∧ Boundary (withEnd tokens) j} r
  at_end : next.current.kind = .eof → r = f
  kept : ∃ first last earlier e, (withEnd tokens)[i]? = some first ∧ (withEnd tokens)[r - 1]? = some last ∧
    next.errors.toList = s.errors.toList ++ earlier ++ [e] ∧ st = .bad (.between first last) e.message

section
variable {tokens rest : List Token} {i : Nat} {s : TokenStream} {first : Token}

theorem attempt_reads (h : s.rest = first :: rest) :
    (attempt s first (left_advance_lt h)).Course Stmt.ReadFrom := by
  obtain ⟨hS, -, -⟩ := statement_block_course (s.left + 1)
  obtain ⟨-, -, hB⟩ := statement_block_course s.left
  exact attempt_course hS hB h

theorem recover_least {us : List Token} {es : List SyntaxError} {next : TokenStream} {moved : Bool}
    (h : At tokens i s) (hr : s.rest = first :: rest) (hp : s.Passes next us es)
    (hmoved : moved = false → us = []) (le : next.left + moved.toNat ≤ s.left) :
    ∃ r, At tokens r (next.recover moved) ∧
      IsLeast {j | max (i + us.length) (i + 1) ≤ j ∧ Boundary (withEnd tokens) j} r := by
  have hnext := h.passes hp
  cases moved with
  | true =>
    have hleft := hp.left
    simp only [Bool.toNat_true] at le
    rw [Nat.max_eq_left (by omega)]
    exact resume_least hnext
  | false =>
    obtain rfl := hmoved rfl
    have hr' : next.rest = first :: rest := by rw [← hr, hp.rest, List.nil_append]
    rw [Nat.max_eq_right (by simp)]
    exact resume_least (hnext.passes (passes_advance hr'))

theorem At.behind (h : At tokens i s) (hr : s.rest = first :: rest) :
    ∃ r, At tokens r (declaration s first rest hr).1.2 ∧ i < r := by
  obtain ⟨us, es, hp, -⟩ := s.declaration_course first rest hr
  have := List.length_pos_iff.mpr (hp.ne_nil (declaration s first rest hr).2)
  exact ⟨_, h.passes hp, by omega⟩

theorem At.resumes (h : At tokens i s) (hr : s.rest = first :: rest) {fault : SyntaxFault} {next : TokenStream}
    {moved : Bool} {le : next.left + moved.toNat ≤ s.left}
    (hfail : attempt s first (left_advance_lt hr) = .fail fault next moved le) :
    ∃ f r, At tokens r (declaration s first rest hr).1.2 ∧
      Resumes tokens i f r s next (declaration s first rest hr).1.1 := by
  have hcourse := attempt_reads hr
  rw [hfail] at hcourse
  obtain ⟨us, es, e, hp, rfl, hmoved⟩ := hcourse
  obtain ⟨r, hat, hleast⟩ := recover_least h hr hp hmoved le
  rw [declaration_eq, hfail]
  refine ⟨_, r, hat, h.passes hp, hleast, fun hend => ?_, first, _, es, e, ?_, hat.prev, ?_, rfl⟩
  · -- an end is a boundary, and the declaration did not begin there
    have hnil := (h.passes hp).ended_iff.mp hend
    have hb : Boundary (withEnd tokens) (i + us.length) := (h.passes hp).boundary_iff.mpr (.inl hnil)
    have hus : us ≠ [] := by
      rintro rfl
      have := hp.rest
      rw [hr, hnil] at this
      cases this
    have hpos := List.length_pos_iff.mpr hus
    have hle := hleast.1.1
    have hge := hleast.2 ⟨by omega, hb⟩
    omega
  · rw [h.current, TokenStream.current, hr]
    rfl
  · rw [hp.errors, List.append_assoc]

end

/-! ## Calls -/

/-- A call of one of the procedures that read declarations, at a stream. -/
inductive Call where
  | program (s : TokenStream)
  | body (s : TokenStream)
  | declaration (s : TokenStream)
  | statement (s : TokenStream)

namespace Call

def stream : Call → TokenStream
  | program s | body s | declaration s | statement s => s

/-- A call makes another one. Bodies are those of blocks and of functions; a loop goes on by calling itself. -/
inductive Calls : Call → Call → Prop where
  | first {s : TokenStream} {t : Token} {rest : List Token} : s.rest = t :: rest → Calls (program s) (declaration s)
  | more {s : TokenStream} {t : Token} {rest : List Token} (h : s.rest = t :: rest) :
      Calls (program s) (program (s.declaration t rest h).1.2)
  | firstOfBody {s : TokenStream} {t : Token} {rest : List Token} : s.rest = t :: rest → t.kind ≠ .rbrace →
      Calls (body s) (declaration s)
  | moreOfBody {s : TokenStream} {t : Token} {rest : List Token} (h : s.rest = t :: rest) : t.kind ≠ .rbrace →
      Calls (body s) (body (s.declaration t rest h).1.2)
  | function {s s₁ s₂ s₃ : TokenStream} {t name opening : Token} {rest : List Token} {params : List Param}
      {lt₁ : s₁.left < s.advance.left} {lt₂ : s₂.left < s₁.left} {lt₃ : s₃.left < s₂.left} :
      s.rest = t :: rest → t.kind = .kwFn → s.advance.expect .ident .noFunctionName = .done name s₁ lt₁ →
      s₁.parameterList = .done params s₂ lt₂ → s₂.expect .lbrace .noFunctionBody = .done opening s₃ lt₃ →
      Calls (declaration s) (body s₃)
  | plain {s : TokenStream} {t : Token} {rest : List Token} :
      s.rest = t :: rest → t.kind ≠ .kwFn → t.kind ≠ .kwVar →
      Calls (declaration s) (statement s)
  | block {s : TokenStream} {t : Token} {rest : List Token} : s.rest = t :: rest → t.kind = .lbrace →
      Calls (statement s) (body s.advance)
  | branch {s s₁ : TokenStream} {t : Token} {rest : List Token} {cond : Expr} {lt₁ : s₁.left < s.advance.left} :
      s.rest = t :: rest → t.kind = .kwIf →
      s.advance.condition .noIfCondition .unclosedIfCondition = .done cond s₁ lt₁ →
      Calls (statement s) (statement s₁)
  | other {s s₁ s₂ s₃ : TokenStream} {t : Token} {rest : List Token} {cond : Expr} {yes : Stmt}
      {lt₁ : s₁.left < s.advance.left} {lt₂ : s₂.left < s₁.left} {lt₃ : s₃.left < s₂.left} :
      s.rest = t :: rest → t.kind = .kwIf →
      s.advance.condition .noIfCondition .unclosedIfCondition = .done cond s₁ lt₁ →
      s₁.statement = .done yes s₂ lt₂ → s₂.skip? .kwElse = some ⟨s₃, lt₃⟩ → Calls (statement s) (statement s₃)
  | loop {s s₁ : TokenStream} {t : Token} {rest : List Token} {cond : Expr} {lt₁ : s₁.left < s.advance.left} :
      s.rest = t :: rest → t.kind = .kwWhile →
      s.advance.condition .noWhileCondition .unclosedWhileCondition = .done cond s₁ lt₁ →
      Calls (statement s) (statement s₁)

def rank : Call → Nat
  | statement s => 4 * s.left
  | declaration s => 4 * s.left + 1
  | body s | program s => 4 * s.left + 2

variable {c d : Call}

theorem Calls.rank_lt (h : Calls c d) : d.rank < c.rank := by
  cases h with
  | first | firstOfBody | plain => simp [rank]
  | more h =>
    have := (TokenStream.declaration _ _ _ h).2
    simp only [rank]
    omega
  | moreOfBody h =>
    have := (TokenStream.declaration _ _ _ h).2
    simp only [rank]
    omega
  | block h | branch h | other h | loop h | function h =>
    have := left_advance_lt h
    simp only [rank]
    omega

theorem calls_end (c : Call) : Acc (fun d c => Calls c d) c :=
  Subrelation.accessible (fun h => h.rank_lt) (InvImage.accessible rank (Nat.lt_wfRel.wf.apply c.rank))

end Call

open Call

section
variable {tokens : List Token} {i : Nat} {c d : Call}

theorem At.done {α : Type} {s next : TokenStream} {lt : next.left < s.left} {r : Reading α s} {a : α}
    {Q : α → List Token → List SyntaxError → Prop} (h : At tokens i s) (hc : r.Course Q)
    (hr : r = .done a next lt) :
    ∃ j, At tokens j next := by
  rw [hr] at hc
  obtain ⟨us, es, hp, -⟩ := hc
  exact ⟨_, h.passes hp⟩

theorem statement_reads (s : TokenStream) : (statement s).Course Stmt.ReadFrom :=
  (statement_block_course (s.left + 1)).1 s (Nat.lt_succ_self _)

theorem At.call (h : At tokens i c.stream) (hc : Calls c d) : ∃ j, At tokens j d.stream := by
  cases hc with
  | first | firstOfBody | plain => exact ⟨i, h⟩
  | more hr | moreOfBody hr =>
    obtain ⟨r, hat, -⟩ := h.behind hr
    exact ⟨r, hat⟩
  | block hr => exact ⟨_, At.passes h (passes_advance hr)⟩
  | function hr _ h₁ h₂ h₃ =>
    obtain ⟨i₁, hat₁⟩ := (At.passes h (passes_advance hr)).done (expect_course ..) h₁
    obtain ⟨i₂, hat₂⟩ := hat₁.done (parameterList_course _) h₂
    exact hat₂.done (expect_course ..) h₃
  | branch hr _ h₁ | loop hr _ h₁ =>
    exact (At.passes h (passes_advance hr)).done (condition_course ..) h₁
  | other hr _ h₁ h₂ h₃ =>
    obtain ⟨i₁, hat₁⟩ := (At.passes h (passes_advance hr)).done (condition_course ..) h₁
    obtain ⟨i₂, hat₂⟩ := hat₁.done (statement_reads _) h₂
    obtain ⟨t, -, hp⟩ := passes_skip? h₃
    exact ⟨_, hat₂.passes hp⟩

theorem At.calls (h : Relation.ReflTransGen Calls (.program (ofTokens tokens)) c) : ∃ i, At tokens i c.stream := by
  induction h with
  | refl => exact ⟨0, .start tokens⟩
  | tail _ hstep ih =>
    obtain ⟨i, hi⟩ := ih
    exact hi.call hstep

end

end TokenStream

open TokenStream in
/-- Reading any tokens comes to an end, and looks at no token outside the list. Every declaration takes a token at
least, wherever it begins. One that is given up leaves a bad statement with the message of the last error, and
reading goes on at the first boundary. -/
theorem recovery_resumes_at_boundary (tokens : List Token) :
    Acc (fun d c => Call.Calls c d) (.program (ofTokens tokens)) ∧
    (∀ c, Relation.ReflTransGen Call.Calls (.program (ofTokens tokens)) c → ∃ i, At tokens i c.stream) ∧
    (∀ i s, At tokens i s → (withEnd tokens)[i]? = some s.current ∧ (withEnd tokens)[i - 1]? = some s.prev ∧
      ∀ least, ∃ j, i ≤ j ∧ At tokens j (expr least s).reached) ∧
    (∃ i, At tokens i (declarations [] (ofTokens tokens)).2 ∧
      (declarations [] (ofTokens tokens)).2.current.kind = .eof) ∧
    ∀ i s first rest, At tokens i s → ∀ h : s.rest = first :: rest,
      ∃ r, At tokens r (declaration s first rest h).1.2 ∧ i < r ∧
        (∀ st next lt, attempt s first (left_advance_lt h) = .done st next lt →
          (declaration s first rest h).1 = (st, next)) ∧
        ∀ fault next moved le, attempt s first (left_advance_lt h) = .fail fault next moved le →
          ∃ f, Resumes tokens i f r s next (declaration s first rest h).1.1 := by
  refine ⟨Call.calls_end _, fun c hc => At.calls hc, fun i s hat => ⟨hat.current, hat.prev, fun least => ?_⟩, ?_,
    ?_⟩
  · obtain ⟨us, es, hp⟩ := (expr_course least s).passes
    exact ⟨_, Nat.le_add_right .., hat.passes hp⟩
  · obtain ⟨body, new, -, hp, -⟩ := declarations_course [] (ofTokens tokens)
    have hat := (At.start tokens).passes hp
    refine ⟨_, hat, hat.ended_iff.mpr ?_⟩
    simpa using hp.rest
  · intro i s first rest hat hr
    obtain ⟨r, hat', hlt⟩ := At.behind hat hr
    refine ⟨r, hat', hlt, fun st next lt hdone => ?_, fun fault next moved le hfail => ?_⟩
    · rw [declaration_eq, hdone, settled]
    · obtain ⟨f, r', hr', hresumes⟩ := At.resumes hat hr hfail
      obtain rfl := hr'.unique hat'
      exact ⟨f, hresumes⟩

/-- A declaration that is given up at its third token, with a boundary behind the semicolon, and one that is given
up at once, with a boundary at the word behind it. -/
def slipped : List Token := tokenize (txt "var x 1 + 2; \x7d print 3;")

open TokenStream in
theorem slipped_resumes : ∃ s, At slipped 6 s ∧
    (∃ first rest, ∃ h : (ofTokens slipped).rest = first :: rest, ∃ next,
      Resumes slipped 0 2 6 (ofTokens slipped) next (declaration (ofTokens slipped) first rest h).1.1) ∧
    ∃ first rest, ∃ h : s.rest = first :: rest, ∃ next,
      Resumes slipped 6 6 7 s next (declaration s first rest h).1.1 := by
  have hleft : (ofTokens slipped).left = 10 := by decide +kernel
  obtain ⟨-, -, -, -, hdecl⟩ := recovery_resumes_at_boundary slipped
  -- where a declaration is given up and where reading goes on are told by the tokens left there
  have hresumes {i : Nat} {s : TokenStream} {first : Token} {rest : List Token} (hat : At slipped i s)
      (h : s.rest = first :: rest) {f r : Nat} (hf : f < r) (hr : r ≤ 10)
      (hleft : (attempt s first (left_advance_lt h)).reached.left = 10 - f ∧
        (declaration s first rest h).1.2.left = 10 - r) :
      ∃ next, Resumes slipped i f r s next (declaration s first rest h).1.1 := by
    obtain ⟨r', ⟨us, es, hp, rfl⟩, -, hdone, hfail⟩ := hdecl i s first rest hat h
    have hr' := hp.left
    cases ha : attempt s first (left_advance_lt h) with
    | done st next lt =>
      have hnext : next.left = 10 - f := by
        rw [ha] at hleft
        exact hleft.1
      have hbehind : next.left = 10 - r := by
        rw [hdone st next lt ha] at hleft
        exact hleft.2
      omega
    | fail fault next moved le =>
      have hnext : next.left = 10 - f := by
        rw [ha] at hleft
        exact hleft.1
      obtain ⟨f', hres⟩ := hfail fault next moved le ha
      obtain ⟨us', es', hp', rfl⟩ := hres.at_fault
      have hf' := hp'.left
      obtain rfl : us'.length = f := by omega
      obtain rfl : us.length = r := by omega
      exact ⟨next, hres⟩
  have hrun : ∃ h : (ofTokens slipped).rest = (ofTokens slipped).current :: (ofTokens slipped).rest.tail,
      let s := (declaration (ofTokens slipped) _ _ h).1.2
      ((attempt (ofTokens slipped) (ofTokens slipped).current (left_advance_lt h)).reached.left = 8 ∧ s.left = 4) ∧
      ∃ h' : s.rest = s.current :: s.rest.tail,
        (attempt s s.current (left_advance_lt h')).reached.left = 4 ∧ (declaration s _ _ h').1.2.left = 3 := by
    decide +kernel
  obtain ⟨h, hfirst, h', hsecond⟩ := hrun
  obtain ⟨r, ⟨us, es, hp, rfl⟩, -⟩ := hdecl 0 _ _ _ (.start slipped) h
  have hat : At slipped 6 (declaration (ofTokens slipped) _ _ h).1.2 := ⟨us, es, hp, by have := hp.left; omega⟩
  exact ⟨_, hat, ⟨_, _, h, hresumes (.start slipped) h (by decide) (by decide) hfirst⟩,
    _, _, h', hresumes hat h' (by decide) (by decide) hsecond⟩

end RegCode
