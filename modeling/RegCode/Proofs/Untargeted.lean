import RegCode.Proofs.Course

/-!
# Assignments without a target

That an assignment has no target is reported behind its value, and so behind the errors of assignments in that
value. The value of an assignment goes on as long as the expression does, which shows in the tokens: they are all of
expressions, and no bracket is closed that was not opened behind the assignment.

Every error is marked with the tokens from its own on. Two errors are reported in the order of their marks, except
that the error of an assignment comes behind those that it covers. What is shown of reading is therefore twofold:
which marks it leaves, and which of these assignments are still open where it has come to, so that what is read next
could be in their value.
-/

namespace RegCode

/-! ## Brackets -/

namespace Kind

def inExpression (k : Kind) : Bool :=
  [ident, int, float, string, lparen, rparen, bang, assign, equal, notEqual, less, lessEqual, greater, greaterEqual,
    plus, minus, star, slash].contains k

def isPlain (k : Kind) : Bool := k.inExpression && k != .lparen && k != .rparen

theorem isPlain_of_strength {k : Kind} (h : weakest < k.strength) : k.isPlain = true := by
  cases k with
  | other => exact absurd h (Nat.lt_irrefl _)
  | _ =>
    revert h
    decide

theorem not_inExpression_of_starts {k : Kind} (h : k.startsStatement = true) : k.inExpression = false := by
  cases k with
  | other => cases h
  | _ =>
    revert h
    decide

end Kind

/-- How many brackets are open behind a token where `n` are open in front of it. There is no such number if the
token closes one that is not open, or is not of an expression. -/
def Token.brackets (n : Nat) (t : Token) : Option Nat :=
  match t.kind with
  | .lparen => some (n + 1)
  | .rparen => if n = 0 then none else some (n - 1)
  | k => if k.inExpression then some n else none

def WithinValue (mid : List Token) : Prop := (mid.foldlM Token.brackets 0).isSome

instance (mid : List Token) : Decidable (WithinValue mid) := inferInstanceAs (Decidable (_ = true))

def Balanced (us : List Token) : Prop := ∀ n, us.foldlM Token.brackets n = some n

section
variable {t c op : Token} {us vs a b mid : List Token} {n m : Nat}

theorem brackets_add (h : t.brackets n = some m) (k : Nat) : t.brackets (n + k) = some (m + k) := by
  unfold Token.brackets at h ⊢
  split at h
  · cases h
    simp only [Option.some.injEq]
    omega
  · split at h
    · cases h
    · cases h
      rw [if_neg (by omega), Option.some.injEq]
      omega
  · split at h
    · cases h
      rw [if_pos (by assumption)]
    · cases h

theorem nesting_split (h : (a ++ t :: b).foldlM Token.brackets n = some m) : ∃ d d',
    a.foldlM Token.brackets n = some d ∧ t.brackets d = some d' ∧ b.foldlM Token.brackets d' = some m := by
  rw [List.foldlM_append, Option.bind_eq_bind, Option.bind_eq_some_iff] at h
  obtain ⟨d, hd, h⟩ := h
  rw [List.foldlM_cons, Option.bind_eq_bind, Option.bind_eq_some_iff] at h
  obtain ⟨d', ht, hb⟩ := h
  exact ⟨d, d', hd, ht, hb⟩

theorem nesting_add (h : us.foldlM Token.brackets n = some m) (k : Nat) :
    us.foldlM Token.brackets (n + k) = some (m + k) := by
  induction us generalizing n with
  | nil =>
    cases h
    rfl
  | cons t us ih =>
    rw [List.foldlM_cons, Option.bind_eq_bind, Option.bind_eq_some_iff] at h
    obtain ⟨d, hd, hrest⟩ := h
    rw [List.foldlM_cons, brackets_add hd]
    exact ih hrest

theorem inExpression_of_brackets (h : t.brackets n = some m) : t.kind.inExpression = true := by
  unfold Token.brackets at h
  split at h
  · rename_i hk
    rw [hk]
    rfl
  · rename_i hk
    rw [hk]
    rfl
  · split at h
    · assumption
    · cases h

theorem WithinValue.of_append (h : WithinValue (a ++ b)) : WithinValue a := by
  unfold WithinValue at h ⊢
  rw [List.foldlM_append] at h
  exact Option.isSome_of_isSome_bind h

theorem WithinValue.inExpression (h : WithinValue (a ++ t :: b)) : t.kind.inExpression = true := by
  obtain ⟨m, hm⟩ := Option.isSome_iff_exists.mp h
  obtain ⟨d, d', -, ht, -⟩ := nesting_split hm
  exact inExpression_of_brackets ht

theorem Balanced.append (hu : Balanced us) (hv : Balanced vs) : Balanced (us ++ vs) := by
  intro n
  rw [List.foldlM_append, hu]
  exact hv n

theorem Balanced.withinValue (h : Balanced us) : WithinValue us := by
  rw [WithinValue, h 0]
  rfl

theorem balanced_singleton (h : t.kind.isPlain = true) : Balanced [t] := by
  intro n
  rw [List.foldlM_cons, Token.brackets]
  split
  · rename_i hk
    rw [hk] at h
    cases h
  · rename_i hk
    rw [hk] at h
    cases h
  · rw [Kind.isPlain, Bool.and_assoc, Bool.and_eq_true] at h
    rw [if_pos h.1]
    rfl

theorem balanced_group (ht : t.kind = .lparen) (hc : c.kind = .rparen) (h : Balanced us) :
    Balanced (t :: us ++ [c]) := by
  intro n
  have hopen : t.brackets n = some (n + 1) := by rw [Token.brackets, ht]
  have hclose : c.brackets (n + 1) = some n := by simp [Token.brackets, hc]
  rw [List.foldlM_append, List.foldlM_cons, hopen, Option.bind_eq_bind, Option.bind_some, h, Option.bind_some,
    List.foldlM_cons, hclose]
  rfl

/-- The value of an assignment in a balanced text ends with it, where a bracket is closed or the expression ends. -/
theorem Balanced.not_withinValue (h : Balanced (a ++ op :: b))
    (hc : c.kind = .rparen ∨ c.kind.inExpression = false) :
    ¬ WithinValue (b ++ [c]) := by
  intro hw
  rcases hc with hc | hc
  · -- the brackets that are open at the assignment are the same at the end, so none is open behind it
    obtain ⟨d, d', -, -, hrest⟩ := nesting_split (h 0)
    obtain ⟨m, hm⟩ := Option.isSome_iff_exists.mp hw
    obtain ⟨k, k', hk, hlast, -⟩ := nesting_split hm
    have hsum : some (k + d') = some 0 := by rw [← nesting_add hk d', Nat.zero_add, hrest]
    obtain rfl : k = 0 := by
      rw [Option.some.injEq] at hsum
      omega
    rw [Token.brackets, hc] at hlast
    cases hlast
  · rw [hw.inExpression] at hc
    cases hc

end

/-! ## Marks -/

/-- An error, with the tokens from the one it is at on; with none if it is at the end. -/
structure Mark where
  rest : List Token
  error : SyntaxError

namespace Mark

def Untargeted (m : Mark) : Prop :=
  m.error.fault = .badTarget ∧ ∃ op tail, m.rest = op :: tail ∧ op.kind = .assign

/-- Both are errors of assignments without a target, and the second one is in the value of the first. -/
def Covers (m m' : Mark) : Prop :=
  m.Untargeted ∧ m'.Untargeted ∧ ∃ op mid, m.rest = op :: (mid ++ m'.rest) ∧ WithinValue mid

def Before (m m' : Mark) : Prop := m'.Covers m ∨ m'.rest <:+ m.rest ∧ ¬ m.Covers m'

theorem Covers.length_lt {m m' : Mark} (h : m.Covers m') : m'.rest.length < m.rest.length := by
  obtain ⟨-, -, op, mid, hrest, -⟩ := h
  rw [hrest, List.length_cons, List.length_append]
  omega

def Closed (rest : List Token) (m : Mark) : Prop := ∀ m' : Mark, m'.rest <:+ rest → ¬ m.Covers m'

variable {m : Mark} {op : Token} {b rest rest' : List Token}

theorem Closed.of_suffix (h : m.Closed rest) (hs : rest' <:+ rest) : m.Closed rest' :=
  fun m' hm' => h m' (hm'.trans hs)

theorem closed_of_fault (h : m.error.fault ≠ .badTarget) : m.Closed rest :=
  fun _ _ hc => h hc.1.1

theorem closed_of_end (hm : m.rest = op :: (b ++ rest)) (hb : ¬ WithinValue b) : m.Closed rest := by
  rintro m' ⟨y, rfl⟩ ⟨-, -, op', mid, heq, hmid⟩
  rw [hm, List.cons.injEq, ← List.append_assoc, List.append_cancel_right_eq] at heq
  rw [← heq.2] at hmid
  exact hb hmid.of_append

theorem closed_of_head (hm : m.rest = op :: (b ++ rest)) (hr : ∀ t ∈ rest.head?, t.kind.inExpression = false) :
    m.Closed rest := by
  rintro m' ⟨y, rfl⟩ ⟨-, ⟨-, op₁, tail, hop, hk⟩, op', mid, heq, hmid⟩
  rw [hm, List.cons.injEq, ← List.append_assoc, List.append_cancel_right_eq] at heq
  cases y with
  | nil =>
    have := hr op₁ (by rw [hop]; rfl)
    rw [hk] at this
    cases this
  | cons t y =>
    rw [← heq.2] at hmid
    have := hr t rfl
    rw [hmid.inExpression] at this
    cases this

end Mark

namespace TokenStream

variable {s s₁ s' : TokenStream} {t : Token} {us : List Token} {ms ns : List Mark}

/-- From `s` reading has come to `s'` and reported the errors `ms`. -/
structure Noted (s s' : TokenStream) (ms : List Mark) : Prop where
  rest : s'.rest <:+ s.rest
  ending : s'.ending = s.ending
  errors : s'.errors.toList = s.errors.toList ++ ms.map (·.error)
  located : ∀ m ∈ ms, s'.rest <:+ m.rest ∧ m.rest <:+ s.rest ∧ ∃ f, m.error = .atToken (m.rest.headD s.ending) f
  targets : ∀ m ∈ ms, m.error.fault = .badTarget → m.Untargeted ∧ s'.rest.length < m.rest.length
  order : ms.Pairwise Mark.Before

theorem Passes.suffix {new : List SyntaxError} (h : s.Passes s' us new) : s'.rest <:+ s.rest := ⟨us, h.rest.symm⟩

theorem Noted.refl (s : TokenStream) : s.Noted s [] :=
  ⟨List.suffix_refl _, rfl, (List.append_nil _).symm, by simp, by simp, .nil⟩

theorem Noted.pass (h : s.Noted s₁ ms) (hp : s₁.Passes s' us []) : s.Noted s' ms where
  rest := hp.suffix.trans h.rest
  ending := hp.ending.trans h.ending
  errors := by rw [hp.errors, List.append_nil, h.errors]
  located := by
    intro m hm
    obtain ⟨hs', hs, hf⟩ := h.located m hm
    exact ⟨hp.suffix.trans hs', hs, hf⟩
  targets := by
    intro m hm hf
    obtain ⟨hu, hlt⟩ := h.targets m hm hf
    have := hp.left
    unfold left at this
    exact ⟨hu, by omega⟩
  order := h.order

theorem Noted.trans (h : s.Noted s₁ ms) (hc : ∀ m ∈ ms, m.Closed s₁.rest) (h' : s₁.Noted s' ns) :
    s.Noted s' (ms ++ ns) where
  rest := h'.rest.trans h.rest
  ending := h'.ending.trans h.ending
  errors := by rw [h'.errors, h.errors, List.map_append, List.append_assoc]
  located := by
    intro m hm
    rcases List.mem_append.mp hm with hm | hm
    · obtain ⟨hs', hs, hf⟩ := h.located m hm
      exact ⟨h'.rest.trans hs', hs, hf⟩
    · obtain ⟨hs', hs, hf⟩ := h'.located m hm
      exact ⟨hs', hs.trans h.rest, h.ending ▸ hf⟩
  targets := by
    intro m hm hf
    rcases List.mem_append.mp hm with hm | hm
    · obtain ⟨hu, hlt⟩ := h.targets m hm hf
      exact ⟨hu, Nat.lt_of_le_of_lt h'.rest.length_le hlt⟩
    · exact h'.targets m hm hf
  order := by
    refine List.pairwise_append.mpr ⟨h.order, h'.order, fun m hm n hn => .inr ?_⟩
    have hn := (h'.located n hn).2.1
    exact ⟨hn.trans (h.located m hm).1, hc m hm n hn⟩

theorem Noted.report (h : s.Noted s' ms) {r : List Token} (f : SyntaxFault) (hr' : s'.rest <:+ r)
    (hr : r <:+ s.rest) (hbefore : ∀ m ∈ ms, m.Before ⟨r, .atToken (r.headD s.ending) f⟩)
    (hf : f = .badTarget → (∃ op tail, r = op :: tail ∧ op.kind = .assign) ∧ s'.rest.length < r.length) :
    s.Noted (s'.report (r.headD s.ending) f) (ms ++ [⟨r, .atToken (r.headD s.ending) f⟩]) where
  rest := h.rest
  ending := h.ending
  errors := by
    rw [List.map_append, ← List.append_assoc, ← h.errors]
    exact Array.toList_push
  located := by
    intro m hm
    rcases List.mem_append.mp hm with hm | hm
    · exact h.located m hm
    · cases List.mem_singleton.mp hm
      exact ⟨hr', hr, f, rfl⟩
  targets := by
    intro m hm hfault
    rcases List.mem_append.mp hm with hm | hm
    · exact h.targets m hm hfault
    · cases List.mem_singleton.mp hm
      obtain ⟨hop, hlt⟩ := hf hfault
      exact ⟨⟨hfault, hop⟩, hlt⟩
  order := by
    refine List.pairwise_append.mpr ⟨h.order, List.pairwise_singleton .., fun m hm n hn => ?_⟩
    cases List.mem_singleton.mp hn
    exact hbefore m hm

theorem Noted.refuse (h : s.Noted s' ms) {f : SyntaxFault} (hf : f ≠ .badTarget) :
    s.Noted (s'.report s'.current f) (ms ++ [⟨s'.rest, .atToken s'.current f⟩]) := by
  have hcur : s'.current = s'.rest.headD s.ending := by rw [current, h.ending]
  rw [hcur]
  refine h.report f (List.suffix_refl _) h.rest (fun m hm => .inr ⟨(h.located m hm).1, fun hc => ?_⟩) fun heq => ?_
  · exact hf hc.2.1.1
  · exact absurd heq hf

theorem Noted.split {m : Mark} (h : s.Noted s' ms) (hm : m ∈ ms) (hf : m.error.fault = .badTarget)
    (hus : s.rest = us ++ s'.rest) :
    m.Untargeted ∧ ∃ a op b, us = a ++ op :: b ∧ m.rest = op :: (b ++ s'.rest) ∧ op.kind = .assign := by
  obtain ⟨hu, hlt⟩ := h.targets m hm hf
  obtain ⟨⟨w, hw⟩, ⟨a, ha⟩, -⟩ := h.located m hm
  refine ⟨hu, a, ?_⟩
  obtain ⟨-, op, tail, hop, hk⟩ := hu
  cases w with
  | nil =>
    rw [← hw] at hlt
    exact absurd hlt (Nat.lt_irrefl _)
  | cons op' b =>
    obtain rfl : op' = op := (List.cons.inj (hw.trans hop)).1
    refine ⟨op', b, ?_, hw.symm, hk⟩
    rw [hus, ← hw, ← List.append_assoc] at ha
    exact (List.append_cancel_right ha).symm

def Told (s s' : TokenStream) : Prop := ∃ ms, s.Noted s' ms

def Tidy (s s' : TokenStream) : Prop := ∃ ms, s.Noted s' ms ∧ ∀ m ∈ ms, m.Closed s'.rest

theorem Passes.tidy (h : s.Passes s' us []) : s.Tidy s' := ⟨[], (Noted.refl s).pass h, by simp⟩

theorem Tidy.told (h : s.Tidy s₁) (h' : s₁.Told s') : s.Told s' := by
  obtain ⟨ms, hn, hc⟩ := h
  obtain ⟨ns, hn'⟩ := h'
  exact ⟨ms ++ ns, hn.trans hc hn'⟩

theorem Tidy.trans (h : s.Tidy s₁) (h' : s₁.Tidy s') : s.Tidy s' := by
  obtain ⟨ms, hn, hc⟩ := h
  obtain ⟨ns, hn', hc'⟩ := h'
  refine ⟨ms ++ ns, hn.trans hc hn', fun m hm => ?_⟩
  rcases List.mem_append.mp hm with hm | hm
  · exact (hc m hm).of_suffix hn'.rest
  · exact hc' m hm

theorem tidy_refuse (s : TokenStream) {f : SyntaxFault} (hf : f ≠ .badTarget) : s.Tidy (s.report s.current f) := by
  refine ⟨_, (Noted.refl s).refuse hf, fun m hm => ?_⟩
  cases List.mem_singleton.mp hm
  exact Mark.closed_of_fault hf

theorem faultAt_ne {f : SyntaxFault} (hf : f ≠ .badTarget) (t : Token) : faultAt t f ≠ .badTarget := by
  unfold faultAt
  split
  · exact SyntaxFault.noConfusion
  · exact hf

end TokenStream

open TokenStream

/-! ## Readings -/

namespace Reading

variable {α β : Type} {start s : TokenStream} {P P' : TokenStream → Prop}

def Orderly (P : TokenStream → Prop) : Reading α start → Prop
  | .done _ next _ => P next
  | .fail _ next _ _ => start.Told next

theorem Orderly.mono {r : Reading α start} (h : r.Orderly P) (hP : ∀ next, P next → P' next) : r.Orderly P' := by
  cases r with
  | done a next => exact hP next h
  | fail => exact h

theorem Orderly.after {r : Reading α s} (h : r.Orderly P) (hs : start.Tidy s) (lt : s.left < start.left)
    (hP : ∀ next, P next → P' next) : (r.after lt).Orderly P' := by
  cases r with
  | done a next => exact hP next h
  | fail => exact hs.told h

theorem Orderly.after_tidy {r : Reading α s} (h : r.Orderly s.Tidy) (hs : start.Tidy s) (lt : s.left < start.left) :
    (r.after lt).Orderly start.Tidy :=
  h.after hs lt fun _ => hs.trans

theorem Orderly.follow {r : Reading α start} {f : α → (s : TokenStream) → s.left < start.left → Reading β start}
    (h : r.Orderly P) (hf : ∀ a s lt, P s → (f a s lt).Orderly P') : (r.follow f).Orderly P' := by
  cases r with
  | done a s lt => exact hf a s lt h
  | fail => exact h

theorem Orderly.bind {r : Reading α start} {f : α → (s : TokenStream) → s.left < start.left → Reading β s}
    (h : r.Orderly start.Tidy) (hf : ∀ a s lt, (f a s lt).Orderly s.Tidy) : (r.bind f).Orderly start.Tidy :=
  h.follow fun a s lt hs => (hf a s lt).after_tidy hs lt

theorem Orderly.chain {r : Reading α s} {lt : s.left < start.left}
    {f : α → (s' : TokenStream) → s'.left < s.left → Reading β start} (h : r.Orderly P) (hs : start.Tidy s)
    (hf : ∀ a s' lt', P s' → (f a s' lt').Orderly P') : (r.chain lt f).Orderly P' := by
  cases r with
  | done a s' lt' => exact hf a s' lt' h
  | fail => exact hs.told h

theorem Orderly.map {r : Reading α start} (h : r.Orderly P) (f : α → Token → β) : (r.map f).Orderly P := by
  cases r <;> exact h

end Reading

namespace TokenStream

variable {α : Type} {s s₁ start : TokenStream} {t op : Token} {us vs : List Token} {ms ns : List Mark} {k : Kind}
  {f : SyntaxFault} {P : TokenStream → Prop}

theorem reject_orderly (s : TokenStream) (hf : f ≠ .badTarget) : (s.reject f : Reading α s).Orderly P := by
  obtain ⟨ms, h, -⟩ := s.tidy_refuse (faultAt_ne hf s.current)
  exact ⟨ms, h⟩

theorem expect_orderly (s : TokenStream) (k : Kind) (hf : f ≠ .badTarget) : (s.expect k f).Orderly s.Tidy := by
  cases hr : s.rest with
  | nil =>
    rw [expect_nil hr]
    exact s.reject_orderly hf
  | cons t rest =>
    rw [expect_eq hr]
    split
    · exact (passes_advance hr).tidy
    · exact s.reject_orderly hf

/-! ## Expressions -/

/-- The tokens `us` are an expression, or the beginning of one up to an operator; all errors in it are assignments
without a target. -/
structure Phrase (s s' : TokenStream) (us : List Token) (ms : List Mark) : Prop where
  noted : s.Noted s' ms
  rest : s.rest = us ++ s'.rest
  balanced : Balanced us
  targets : ∀ m ∈ ms, m.error.fault = .badTarget

theorem Phrase.tidy (h : s.Phrase s₁ us ms) (hc : ∀ m ∈ ms, m.Closed s₁.rest) : s.Tidy s₁ := ⟨ms, h.noted, hc⟩

theorem phrase_token (hr : s.rest = t :: vs) (h : t.kind.isPlain = true) : s.Phrase s.advance [t] [] :=
  ⟨(Noted.refl s).pass (passes_advance hr), rest_advance hr, balanced_singleton h, by simp⟩

theorem Phrase.append (h : start.Phrase s us ms) (hc : ∀ m ∈ ms, m.Closed s.rest) (h' : s.Phrase s₁ vs ns) :
    start.Phrase s₁ (us ++ vs) (ms ++ ns) where
  noted := h.noted.trans hc h'.noted
  rest := by rw [h.rest, h'.rest, List.append_assoc]
  balanced := h.balanced.append h'.balanced
  targets := by
    intro m hm
    rcases List.mem_append.mp hm with hm | hm
    · exact h.targets m hm
    · exact h'.targets m hm

theorem Phrase.expect {g : Token → Token → α} (h : s.Phrase s₁ us ms) (hf : f ≠ .badTarget)
    (hk : k = .rparen ∨ k.inExpression = false) (lt : s₁.left < s.left) :
    (((s₁.expect k f).map g).after lt : Reading α s).Orderly fun next =>
      ∃ c, c.kind = k ∧ s.rest = us ++ c :: next.rest ∧ s.Noted next ms ∧ ∀ m ∈ ms, m.Closed next.rest := by
  have hreject : (((s₁.reject f : Reading Token s₁).map g).after lt : Reading α s).Orderly fun next =>
      ∃ c, c.kind = k ∧ s.rest = us ++ c :: next.rest ∧ s.Noted next ms ∧ ∀ m ∈ ms, m.Closed next.rest :=
    ⟨_, h.noted.refuse (faultAt_ne hf s₁.current)⟩
  cases hr : s₁.rest with
  | nil =>
    rw [expect_nil hr]
    exact hreject
  | cons c rest =>
    rw [expect_eq hr]
    by_cases hc : c.kind = k
    · rw [if_pos hc]
      have hadv : s₁.advance.rest = rest := by rw [advance, hr]
      refine ⟨c, hc, ?_, h.noted.pass (passes_advance hr), fun m hm => ?_⟩
      · rw [hadv, h.rest, hr]
      · obtain ⟨-, a, op, b, rfl, hmrest, -⟩ := h.noted.split hm (h.targets m hm) h.rest
        rw [hadv]
        rw [hr, List.append_cons] at hmrest
        exact Mark.closed_of_end hmrest (h.balanced.not_withinValue (hc ▸ hk))
    · rw [if_neg hc]
      exact hreject

theorem number_orderly (hr : s.rest = t :: us) (v : Option Literal) (hf : f ≠ .badTarget)
    (lt : s.advance.left < s.left) (hP : P s.advance) : (number t v f s.advance lt).Orderly P := by
  cases v with
  | some v => exact hP
  | none =>
    have h := ((Noted.refl s).pass (passes_advance hr)).report (r := s.rest) f (passes_advance hr).suffix
      (List.suffix_refl _) (by simp) fun heq => absurd heq hf
    rw [hr] at h
    exact ⟨_, h⟩

/-- What has been read when an expression ends in front of a weak operator: a value that may go on stands only
behind the weakest one. -/
def ExprEnd (least : Nat) (s next : TokenStream) : Prop :=
  ∃ us ms, s.Phrase next us ms ∧ ahead next.rest ≤ least ∧ (Kind.weakest < least → ∀ m ∈ ms, m.Closed next.rest)

def ExprOrderlyBelow (n : Nat) : Prop :=
  ∀ (least : Nat) (s : TokenStream), s.left < n → Kind.weakest ≤ least → (expr least s).Orderly (ExprEnd least s)

theorem operand_orderly (ih : ExprOrderlyBelow s.left) :
    (operand s).Orderly fun next => ∃ us ms, s.Phrase next us ms ∧ ∀ m ∈ ms, m.Closed next.rest := by
  cases hr : s.rest with
  | nil =>
    rw [operand_nil hr]
    exact s.reject_orderly SyntaxFault.noConfusion
  | cons t rest =>
    have hlt := left_advance_lt hr
    have htoken (hk : t.kind.isPlain = true) :
        ∃ us ms, s.Phrase s.advance us ms ∧ ∀ m ∈ ms, m.Closed s.advance.rest :=
      ⟨[t], [], phrase_token hr hk, by simp⟩
    have hsign (hk : t.kind.isPlain = true) :
        (Reading.after ((expr Kind.signStrength s.advance).map fun e _ => Expr.signNode t e) hlt).Orderly
          fun next => ∃ us ms, s.Phrase next us ms ∧ ∀ m ∈ ms, m.Closed next.rest := by
      refine ((ih _ _ hlt (by decide)).map _).after (passes_advance hr).tidy hlt ?_
      rintro next ⟨us, ms, h, -, hclosed⟩
      exact ⟨_, _, (phrase_token hr hk).append (by simp) h, hclosed (by decide)⟩
    rw [operand_eq hr]
    split
    · rename_i hk
      exact number_orderly hr _ SyntaxFault.noConfusion hlt (htoken (by rw [hk]; rfl))
    · rename_i hk
      exact number_orderly hr _ SyntaxFault.noConfusion hlt (htoken (by rw [hk]; rfl))
    · rename_i hk
      exact htoken (by rw [hk]; rfl)
    · rename_i hk
      exact htoken (by rw [hk]; rfl)
    · rename_i hk
      -- the closing bracket settles the values inside that might have gone on
      have hgroup : ((expr Kind.weakest s.advance).bind fun inner s _ => (s.expect .rparen .unclosedGroup).map
          fun close _ => Expr.group ⟨t.pos, ⟨t.pos, close.pos⟩⟩ inner).Orderly fun next => ∃ us ms c,
            s.advance.rest = us ++ c :: next.rest ∧ c.kind = .rparen ∧ Balanced us ∧ s.advance.Noted next ms ∧
              ∀ m ∈ ms, m.error.fault = .badTarget ∧ m.Closed next.rest := by
        refine (ih _ _ hlt (Nat.le_refl _)).follow fun inner s₁ lt₁ h => ?_
        obtain ⟨us, ms, h, -, -⟩ := h
        refine (h.expect SyntaxFault.noConfusion (.inl rfl) lt₁).mono ?_
        rintro next ⟨c, hc, hrest, hn, hclosed⟩
        exact ⟨us, ms, c, hrest, hc, h.balanced, hn, fun m hm => ⟨h.targets m hm, hclosed m hm⟩⟩
      refine hgroup.after (passes_advance hr).tidy hlt ?_
      rintro next ⟨us, ms, c, hrest, hc, hb, hn, hms⟩
      refine ⟨t :: us ++ [c], ms, ⟨?_, ?_, balanced_group hk hc hb, fun m hm => (hms m hm).1⟩, fun m hm =>
        (hms m hm).2⟩
      · exact ((Noted.refl s).pass (passes_advance hr)).trans (by simp) hn
      · rw [rest_advance hr, hrest]
        simp
    · rename_i hk
      exact hsign (by rw [hk]; rfl)
    · rename_i hk
      exact hsign (by rw [hk]; rfl)
    · exact s.reject_orderly SyntaxFault.noConfusion

/-- An assignment without a target is reported behind its value, and so behind the errors in it. -/
theorem Phrase.untargeted (h : start.Phrase s us ms) (hc : ∀ m ∈ ms, m.Closed s.rest)
    (hr : s.rest = op :: s.advance.rest) (hop : op.kind = .assign) (h' : s.advance.Phrase s₁ vs ns) :
    start.Phrase (s₁.report op .badTarget) (us ++ op :: vs) (ms ++ ns ++ [⟨s.rest, .atToken op .badTarget⟩]) := by
  have hplain : op.kind.isPlain = true := by rw [hop]; rfl
  have hall := h.append hc ((phrase_token hr hplain).append (by simp) h')
  have hu : Mark.Untargeted ⟨s.rest, .atToken op .badTarget⟩ := ⟨rfl, op, _, hr, hop⟩
  have hhead : s.rest.headD start.ending = op := by rw [hr]; rfl
  have hreport := hall.noted.report (r := s.rest) .badTarget ?_ h.noted.rest ?_ fun _ => ⟨hu.2, ?_⟩
  · rw [hhead] at hreport
    refine ⟨hreport, hall.rest, hall.balanced, fun m hm => ?_⟩
    rcases List.mem_append.mp hm with hm | hm
    · exact hall.targets m hm
    · cases List.mem_singleton.mp hm
      rfl
  · exact h'.noted.rest.trans (passes_advance hr).suffix
  · intro m hm
    rw [hhead]
    rcases List.mem_append.mp hm with hm | hm
    · exact .inr ⟨(h.noted.located m hm).1, hc m hm _ (List.suffix_refl _)⟩
    · obtain ⟨hm, mid, op', b, rfl, hmrest, -⟩ := h'.noted.split hm (h'.targets m hm) h'.rest
      refine .inl ⟨hu, hm, op, mid, ?_, h'.balanced.withinValue.of_append⟩
      rw [hmrest]
      simpa [hr] using h'.rest
  · exact Nat.lt_of_le_of_lt h'.noted.rest.length_le (left_advance_lt hr)

/-- What is left open while operators are read: nothing, or the value that ends here. -/
def OpenAt (least : Nat) (s : TokenStream) (ms : List Mark) : Prop :=
  (∀ m ∈ ms, m.Closed s.rest) ∨ least = Kind.weakest ∧ ahead s.rest ≤ Kind.weakest

theorem joined_orderly (least : Nat) (left right : Expr) (h : start.Phrase s us ms) (hc : ∀ m ∈ ms, m.Closed s.rest)
    (hr : s.rest = op :: s.advance.rest) (hleast : Kind.weakest ≤ least) (hop : least < op.kind.strength)
    (h' : ExprEnd op.kind.rightStrength s.advance s₁) :
    ∃ us ms, start.Phrase (joined left op right s₁).2 us ms ∧ OpenAt least (joined left op right s₁).2 ms := by
  obtain ⟨vs, ns, h', hahead, hclosed⟩ := h'
  have hweak : Kind.weakest < op.kind.strength := Nat.lt_of_le_of_lt hleast hop
  have hall := h.append hc ((phrase_token hr (Kind.isPlain_of_strength hweak)).append (by simp) h')
  unfold joined
  by_cases hk : op.kind = .assign
  · have hopen : least = Kind.weakest ∧ ahead s₁.rest ≤ Kind.weakest := by
      rw [hk] at hop hahead
      exact ⟨Nat.le_antisymm (Nat.le_of_lt_succ hop) hleast, hahead⟩
    rw [if_pos hk]
    cases left.assignNode? op right with
    | some e => exact ⟨_, _, hall, .inr hopen⟩
    | none => exact ⟨_, _, h.untargeted hc hr hk h', .inr hopen⟩
  · have hright : op.kind.rightStrength = op.kind.strength := by
      unfold Kind.rightStrength
      split
      · contradiction
      · rfl
    rw [if_neg hk]
    refine ⟨_, _, hall, .inl fun m hm => ?_⟩
    rcases List.mem_append.mp hm with hm | hm
    · exact (hc m hm).of_suffix (h'.noted.rest.trans (passes_advance hr).suffix)
    · exact hclosed (hright ▸ hweak) m hm

theorem operators_orderly {n : Nat} (ih : ExprOrderlyBelow n) {least : Nat} (left : Expr) (hs : s.left ≤ n)
    (hleast : Kind.weakest ≤ least) (h : start.Phrase s us ms) (hopen : OpenAt least s ms)
    (lt : s.left < start.left) :
    (operators start least left s lt).Orderly (ExprEnd least start) := by
  induction hm : s.left using Nat.strongRecOn generalizing left s us ms with
  | ind m ihm =>
    subst hm
    by_cases hstop : ahead s.rest ≤ least
    · rw [operators_stop lt hstop]
      refine ⟨us, ms, h, hstop, fun hlt => hopen.resolve_right fun ho => ?_⟩
      exact absurd ho.1 (Nat.ne_of_gt hlt)
    · cases hr : s.rest with
      | nil => exact absurd (by rw [hr]; exact Nat.zero_le _) hstop
      | cons op rest =>
        have hc : ∀ m ∈ ms, m.Closed s.rest := by
          refine hopen.resolve_right fun ho => hstop ?_
          rw [ho.1]
          exact ho.2
        rw [hr, ahead, Nat.not_le] at hstop
        have hlt := left_advance_lt hr
        rw [operators_eq lt hr hstop]
        have hright : Kind.weakest ≤ op.kind.rightStrength := by
          unfold Kind.rightStrength
          split
          · exact Nat.le_refl _
          · exact Nat.le_of_lt (Nat.lt_of_le_of_lt hleast hstop)
        refine (ih _ s.advance (by omega) hright).chain ((h.tidy hc).trans (passes_advance hr).tidy)
          fun right next lt' h' => ?_
        obtain ⟨us', ms', hj, ho⟩ := joined_orderly least left right h hc (rest_advance hr) hleast hstop h'
        have hleft := left_joined left op right next
        exact ihm _ (by omega) _ (by omega) hj ho _ rfl

theorem expr_orderly {least : Nat} (hleast : Kind.weakest ≤ least) (s : TokenStream) :
    (expr least s).Orderly (ExprEnd least s) := by
  have hall : ∀ n, ExprOrderlyBelow n := by
    intro n
    induction n with
    | zero => exact fun _ s hs => absurd hs (Nat.not_lt_zero _)
    | succ n ih =>
      intro least s hs hleast
      rw [expr_eq]
      refine (operand_orderly fun least s₁ h => ih least s₁ (by omega)).follow fun e s₁ lt h => ?_
      obtain ⟨us, ms, h, hc⟩ := h
      exact operators_orderly ih e (by omega) hleast h (.inl hc) lt
  exact hall (s.left + 1) least s (Nat.lt_succ_self _) hleast

end TokenStream

end RegCode
