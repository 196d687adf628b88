import RegCode.Proofs.ParseComplete

/-!
# Texts that are cut short

The tokens of a text without errors are cut somewhere and an end is put there. Reading what is left keeps up with
reading all of it as long as there are tokens, since it looks at no token but the next one. When there are none left
it reports errors at the end only, however many phrases are open by then.
-/

namespace RegCode

namespace TokenStream

section
variable {eof t : Token} {rest : List Token} {s s' : TokenStream}

/-- There are no tokens left, and all errors are at the end. -/
structure Spent (eof : Token) (s : TokenStream) : Prop where
  rest : s.rest = []
  ending : s.ending = eof
  kind : eof.kind = .eof
  errors : ∀ e ∈ s.errors, e.pos = eof.pos ∧ e.lexeme = []

/-- The stream `s'` is `s` with fewer tokens to come and no errors. -/
structure Cut (eof : Token) (s s' : TokenStream) : Prop where
  prev : s'.prev = s.prev
  rest : s'.rest <+: s.rest
  ending : s'.ending = eof
  kind : eof.kind = .eof
  errors : s'.errors = #[]

theorem Spent.report (h : s.Spent eof) (f : SyntaxFault) : (s.report s.current f).Spent eof := by
  have hc : s.current = eof := by rw [current, h.rest, List.headD_nil, h.ending]
  refine ⟨h.rest, h.ending, h.kind, ?_⟩
  intro e he
  rw [TokenStream.report, hc, Array.mem_push] at he
  rcases he with he | rfl
  · exact h.errors e he
  · exact ⟨rfl, by simp [SyntaxError.atToken, h.kind]⟩

theorem Spent.not_cons (h : s.Spent eof) : s.rest ≠ t :: rest := by
  simp [h.rest]

theorem Spent.advance (h : s.Spent eof) : s.advance = s := by
  rw [TokenStream.advance, h.rest]

theorem Spent.resume (h : s.Spent eof) : s.resume = s := by
  rw [TokenStream.resume]
  split
  · rfl
  · rename_i hr
    exact absurd hr h.not_cons

theorem Spent.recover (h : s.Spent eof) (moved : Bool) : (s.recover moved).Spent eof := by
  unfold TokenStream.recover
  split
  · rwa [h.resume]
  · rwa [h.advance, h.resume]

theorem Spent.skip? (h : s.Spent eof) (k : Kind) : s.skip? k = none := by
  apply skip?_eq_none
  intro t rest hr
  exact absurd hr h.not_cons

theorem Cut.spent (h : Cut eof s s') (hr : s'.rest = []) : s'.Spent eof :=
  ⟨hr, h.ending, h.kind, by simp [h.errors]⟩

theorem Cut.cases (h : Cut eof s s') : s'.Spent eof ∨
    ∃ t rest rest', s.rest = t :: rest ∧ s'.rest = t :: rest' ∧ Cut eof s.advance s'.advance := by
  cases hr : s'.rest with
  | nil => exact .inl (h.spent hr)
  | cons t rest' =>
    obtain ⟨more, hm⟩ := h.rest
    rw [hr, List.cons_append] at hm
    refine .inr ⟨t, rest' ++ more, rest', hm.symm, rfl, ?_⟩
    unfold advance
    rw [hr, ← hm]
    exact ⟨rfl, List.prefix_append .., h.ending, h.kind, h.errors⟩

theorem Cut.cons (h : Cut eof s s') (hs : s.rest = t :: rest) :
    s'.Spent eof ∨ ∃ rest', s'.rest = t :: rest' ∧ Cut eof s.advance s'.advance := by
  rcases h.cases with hsp | ⟨t', rest₁, rest', hs', hr, hc⟩
  · exact .inl hsp
  · cases hs.symm.trans hs'
    exact .inr ⟨rest', hr, hc⟩

theorem Cut.ahead (h : Cut eof s s') : s'.Spent eof ∨ ahead s'.rest = ahead s.rest := by
  rcases h.cases with hsp | ⟨t, rest, rest', hs, hr, -⟩
  · exact .inl hsp
  · exact .inr (by rw [hs, hr]; rfl)

theorem Cut.skip? (h : Cut eof s s') (k : Kind) : s'.Spent eof ∨ (s.skip? k = none ∧ s'.skip? k = none) ∨
    ∃ next lt next' lt', s.skip? k = some ⟨next, lt⟩ ∧ s'.skip? k = some ⟨next', lt'⟩ ∧ Cut eof next next' := by
  rcases h.cases with hsp | ⟨t, rest, rest', hs, hr, hc⟩
  · exact .inl hsp
  · by_cases hk : t.kind = k
    · exact .inr (.inr ⟨_, _, _, _, skip?_eq_some hs hk, skip?_eq_some hr hk, hc⟩)
    · exact .inr (.inl ⟨skip?_eq_none_of_kind hs hk, skip?_eq_none_of_kind hr hk⟩)

end

end TokenStream

open TokenStream

/-! ## Readings that end -/

namespace Reading

variable {α β : Type} {eof : Token} {start s : TokenStream}

def reached : Reading α start → TokenStream
  | .done _ next _ => next
  | .fail _ next _ _ => next

/-- The reading came to the end, with or without a value. -/
def Ends (eof : Token) (r : Reading α start) : Prop := r.reached.Spent eof

theorem Ends.after {r : Reading α s} (h : r.Ends eof) (lt : s.left < start.left) : (r.after lt).Ends eof := by
  cases r <;> exact h

theorem Ends.map {r : Reading α start} (h : r.Ends eof) (f : α → Token → β) : (r.map f).Ends eof := by
  cases r <;> exact h

theorem Ends.follow {r : Reading α start} {f : α → (s : TokenStream) → s.left < start.left → Reading β start}
    (h : r.Ends eof) (hf : ∀ a s lt, s.Spent eof → (f a s lt).Ends eof) : (r.follow f).Ends eof := by
  cases r with
  | done a s lt => exact hf a s lt h
  | fail => exact h

/-- The reading has the value `a` and gets to where `next` is cut short, or it came to the end. -/
def Keeps (eof : Token) (a : α) (next : TokenStream) (r : Reading α start) : Prop :=
  r.Ends eof ∨ ∃ next' lt, r = .done a next' lt ∧ Cut eof next next'

section
variable {a : α} {next : TokenStream}

theorem Keeps.after {r : Reading α s} (h : r.Keeps eof a next) (lt : s.left < start.left) :
    (r.after lt).Keeps eof a next := by
  rcases h with h | ⟨next', lt', rfl, hc⟩
  · exact .inl (h.after lt)
  · exact .inr ⟨next', _, rfl, hc⟩

theorem Keeps.map {r : Reading α start} (h : r.Keeps eof a next) (f : α → Token → β) :
    (r.map f).Keeps eof (f a next.prev) next := by
  rcases h with h | ⟨next', lt, rfl, hc⟩
  · exact .inl (h.map f)
  · exact .inr ⟨next', lt, by rw [Reading.map, hc.prev], hc⟩

theorem Keeps.follow {r : Reading α start} {f : α → (s : TokenStream) → s.left < start.left → Reading β start}
    {b : β} {s₁ : TokenStream} (h : r.Keeps eof a s₁) (hf : ∀ s lt, Cut eof s₁ s → (f a s lt).Keeps eof b next)
    (he : ∀ a s lt, s.Spent eof → (f a s lt).Ends eof) : (r.follow f).Keeps eof b next := by
  rcases h with h | ⟨s, lt, rfl, hc⟩
  · exact .inl (h.follow he)
  · exact hf s lt hc

end

end Reading

theorem TokenStream.left_lt_trans {start s s' : TokenStream} (lt' : s'.left < s.left) (lt : s.left < start.left) :
    s'.left < start.left := Nat.lt_trans lt' lt

theorem TokenStream.left_lt_of_fail {start s s' : TokenStream} {moved : Bool}
    (le : s'.left + moved.toNat ≤ s.left) (lt : s.left < start.left) : s'.left < start.left :=
  Nat.lt_of_le_of_lt (Nat.le_trans (Nat.le_add_right ..) le) lt

namespace Reading

section
variable {α β : Type} {eof : Token} {start s o : TokenStream} {r : Reading α s} {lt : s.left < start.left}
  {f : α → (s' : TokenStream) → s'.left < s.left → Reading β start}

/-- Reads a phrase behind `start` and goes on behind it. -/
def chain (r : Reading α s) (lt : s.left < start.left)
    (f : α → (s' : TokenStream) → s'.left < s.left → Reading β start) : Reading β start :=
  match r with
  | done a next lt' => f a next lt'
  | fail e next _ le => stuck e next (left_lt_of_fail le lt)

theorem Ends.chain (h : r.Ends eof) (hf : ∀ a s' lt', s'.Spent eof → (f a s' lt').Ends eof) :
    (r.chain lt f).Ends eof := by
  cases r with
  | done a s' lt' => exact hf a s' lt' h
  | fail => exact h

theorem Keeps.chain {a : α} {b : β} {s₁ next : TokenStream} (h : r.Keeps eof a s₁)
    (hf : ∀ s' lt', Cut eof s₁ s' → (f a s' lt').Keeps eof b next)
    (he : ∀ a s' lt', s'.Spent eof → (f a s' lt').Ends eof) : (r.chain lt f).Keeps eof b next := by
  rcases h with h | ⟨s', lt', rfl, hc⟩
  · exact .inl (h.chain he)
  · exact hf s' lt' hc

theorem Meets.chain {Q : α → List Token → TokenStream → Prop} {Q₂ : β → List Token → TokenStream → Prop}
    (h : r.Meets o Q)
    (hf : ∀ a s' lt', (f a s' lt').Meets s' fun b used next => ∀ used', Q a used' s' → Q₂ b (used' ++ used) next) :
    (r.chain lt f).Meets o Q₂ := by
  cases r with
  | done a s' lt' =>
    refine (hf a s' lt').behind fun hn => ?_
    obtain ⟨ho, used', hu, hq⟩ := h hn
    exact ⟨ho, used', hu, fun b used next hb => hb used' hq⟩
  | fail => exact h

theorem after_after {s₁ : TokenStream} (r : Reading α s₁) (lt₁ : s₁.left < s.left) (lt : s.left < start.left) :
    (r.after lt₁).after lt = r.after (left_lt_trans lt₁ lt) := by
  cases r <;> rfl

theorem Meets.of_nil {Q Q' : α → List Token → TokenStream → Prop} (h : r.Meets o Q) (hs : s.rest = []) :
    r.Meets o Q' := by
  cases r with
  | done a next lt =>
    rw [TokenStream.left, TokenStream.left, hs] at lt
    exact absurd lt (Nat.not_lt_zero _)
  | fail => exact h

end

end Reading

/-! ## Viable readings -/

section
variable {α β : Type} {eof t : Token} {n m : Nat} {r : (s : TokenStream) → Reading α s}
  {F G H : (start s : TokenStream) → s.left < start.left → Reading α start}

/-- From streams of fewer than `n` tokens, what is read without an error is also read where the stream is cut short,
unless that comes to the end; and at the end it stays there. -/
structure Viable (eof : Token) (n : Nat) (r : (s : TokenStream) → Reading α s) : Prop where
  ends : ∀ s, s.Spent eof → (r s).Ends eof
  keeps : ∀ s, s.left < n → (r s).Meets s fun a _ next => ∀ s', Cut eof s s' → (r s').Keeps eof a next

/-- The same for what goes on with a phrase that began at `start`. -/
structure ViableBehind (eof : Token) (n : Nat)
    (F : (start s : TokenStream) → s.left < start.left → Reading α start) : Prop where
  ends : ∀ start s lt, s.Spent eof → (F start s lt).Ends eof
  keeps : ∀ start s lt, s.left < n →
    (F start s lt).Meets s fun a _ next => ∀ start' s' lt', Cut eof s s' → (F start' s' lt').Keeps eof a next

/-- The same for streams that have `t` next. -/
def ViableOn (eof : Token) (n : Nat) (t : Token)
    (f : (s : TokenStream) → (rest : List Token) → s.rest = t :: rest → Reading α s) : Prop :=
  ∀ s rest hr, s.left < n → (f s rest hr).Meets s fun a _ next =>
    ∀ s' rest' hr', Cut eof s s' → (f s' rest' hr').Keeps eof a next

theorem Viable.mono (h : Viable eof n r) (hm : m ≤ n) : Viable eof m r :=
  ⟨h.ends, fun s hs => h.keeps s (Nat.lt_of_lt_of_le hs hm)⟩

theorem Viable.behind (h : Viable eof n r) : ViableBehind eof n fun _ s lt => (r s).after lt where
  ends _ s lt hs := (h.ends s hs).after lt
  keeps _ s lt hs := ((h.keeps s hs).after lt).mono fun _ _ _ hk _ s' lt' hc => (hk s' hc).after lt'

theorem Viable.map (h : Viable eof n r) (f : α → Token → β) : Viable eof n fun s => (r s).map f where
  ends s hs := (h.ends s hs).map f
  keeps s hs := (h.keeps s hs).map fun _ _ _ hk s' hc => (hk s' hc).map f

theorem ViableBehind.map (h : ViableBehind eof n F) (f : α → Token → β) :
    ViableBehind eof n fun start s lt => (F start s lt).map f where
  ends start s lt hs := (h.ends start s lt hs).map f
  keeps start s lt hs := (h.keeps start s lt hs).map fun _ _ _ hk start' s' lt' hc => (hk start' s' lt' hc).map f

theorem ViableBehind.done (value : Token → α) :
    ViableBehind eof n fun start s lt => (.done (value s.prev) s lt : Reading α start) where
  ends _ _ _ hs := hs
  keeps _ s _ _ hn := ⟨hn, [], rfl, fun _ s' lt' hc => .inr ⟨s', lt', by rw [hc.prev], hc⟩⟩

section
variable {K : α → (start s : TokenStream) → s.left < start.left → Reading β start}

theorem Viable.follow (hr : Viable eof n r) (hK : ∀ a, ViableBehind eof m (K a)) (hm : n ≤ m + 1) :
    Viable eof n fun s => (r s).follow fun a s₁ lt => K a s s₁ lt where
  ends s hs := (hr.ends s hs).follow fun a s₁ lt h => (hK a).ends s s₁ lt h
  keeps s hs := (hr.keeps s hs).follow fun a s₁ lt => by
    refine ((hK a).keeps s s₁ lt (by omega)).mono fun b used next hk used' hq s' hc => ?_
    exact (hq s' hc).follow (fun s₁' lt' hc' => hk s' s₁' lt' hc') fun a' s₁' lt' h => (hK a').ends s' s₁' lt' h

theorem Viable.bind {f : α → (s : TokenStream) → Reading β s} (hr : Viable eof n r) (hf : ∀ a, Viable eof m (f a))
    (hm : n ≤ m + 1) : Viable eof n fun s => (r s).bind fun a s₁ _ => f a s₁ :=
  hr.follow (fun a => (hf a).behind) hm

theorem Viable.chain (hr : Viable eof n r) (hK : ∀ a, ViableBehind eof m (K a)) (hm : n ≤ m + 1) :
    ViableBehind eof n fun start s lt => (r s).chain lt fun a s₁ lt₁ => K a start s₁ (left_lt_trans lt₁ lt) where
  ends start s lt hs := (hr.ends s hs).chain fun a s₁ lt₁ h => (hK a).ends start s₁ _ h
  keeps start s lt hs := (hr.keeps s hs).chain fun a s₁ lt₁ => by
    refine ((hK a).keeps start s₁ _ (by omega)).mono fun b used next hk used' hq start' s' lt' hc => ?_
    exact (hq s' hc).chain (fun s₁' lt₁' hc' => hk start' s₁' _ hc') fun a' s₁' _ h => (hK a').ends start' s₁' _ h

end

/-- Goes on in one way behind a token of kind `k` and in another where none is next. -/
theorem ViableBehind.skip (k : Kind) (hF : ViableBehind eof m F) (hG : ViableBehind eof n G) (hm : n ≤ m + 1)
    (hs : ∀ start s lt next lt', s.skip? k = some ⟨next, lt'⟩ → H start s lt = F start next (left_lt_trans lt' lt))
    (hn : ∀ start s lt, s.skip? k = none → H start s lt = G start s lt) : ViableBehind eof n H := by
  have hends : ∀ start s lt, s.Spent eof → (H start s lt).Ends eof := by
    intro start s lt h
    rw [hn start s lt (h.skip? k)]
    exact hG.ends start s lt h
  refine ⟨hends, fun start s lt hlt => ?_⟩
  cases hsk : s.skip? k with
  | none =>
    rw [hn start s lt hsk]
    refine (hG.keeps start s lt hlt).mono fun a used next hk start' s' lt' hc => ?_
    rcases hc.skip? k with h | ⟨-, h⟩ | ⟨_, _, _, _, h, -⟩
    · exact .inl (hends start' s' lt' h)
    · rw [hn start' s' lt' h]
      exact hk start' s' lt' hc
    · cases hsk.symm.trans h
  | some p =>
    obtain ⟨s₁, lt₁⟩ := p
    obtain ⟨t, -, hr, he⟩ := skip?_some hsk
    rw [hs start s lt s₁ lt₁ hsk]
    refine .past hr he ((hF.keeps start s₁ _ (by omega)).mono fun a used next hk start' s' lt' hc => ?_)
    rcases hc.skip? k with h | ⟨h, -⟩ | ⟨_, _, s₁', lt₁', h, h', hc'⟩
    · exact .inl (hends start' s' lt' h)
    · cases hsk.symm.trans h
    · cases hsk.symm.trans h
      rw [hs start' s' lt' s₁' lt₁' h']
      exact hk start' s₁' _ hc'

section
variable {f g : (s : TokenStream) → (rest : List Token) → s.rest = t :: rest → Reading α s}

theorem ViableOn.congr (h : ViableOn eof n t g) (hfg : ∀ s rest hr, f s rest hr = g s rest hr) :
    ViableOn eof n t f := by
  have : f = g := by
    funext s rest hr
    exact hfg s rest hr
  rwa [this]

theorem ViableOn.of_meets (h : ∀ s rest hr Q, (f s rest hr).Meets s Q) : ViableOn eof n t f :=
  fun s rest hr _ => h s rest hr _

theorem Viable.on (h : Viable eof n r) : ViableOn eof n t fun s _ _ => r s :=
  fun s _ _ hs => (h.keeps s hs).mono fun _ _ _ hk s' _ _ hc => hk s' hc

theorem ViableBehind.past (h : ViableBehind eof n F) :
    ViableOn eof (n + 1) t fun s _ hr => F s s.advance (left_advance_lt hr) := by
  intro s rest hr hs
  have hlt := left_advance_lt hr
  refine .past (rest_advance hr) s.errors_advance ((h.keeps s s.advance hlt (by omega)).mono ?_)
  intro a used next hk s' rest' hr' hc
  rcases hc.cons hr with hsp | ⟨_, _, hc'⟩
  · exact absurd hr' hsp.not_cons
  · exact hk s' s'.advance _ hc'

theorem ViableOn.token (a : α) : ViableOn eof n t fun s _ hr => .done a s.advance (left_advance_lt hr) :=
  fun s rest hr hs => ((ViableBehind.done fun _ => a).past (n := n)) s rest hr (Nat.lt_succ_of_lt hs)

theorem Viable.of_tokens {Q : α → List Token → TokenStream → Prop} (hends : ∀ s, s.Spent eof → (r s).Ends eof)
    (hm : ∀ s, (r s).Meets s Q) (h : ∀ t, ViableOn eof n t fun s _ _ => r s) : Viable eof n r := by
  refine ⟨hends, fun s hs => ?_⟩
  cases hr : s.rest with
  | nil => exact (hm s).of_nil hr
  | cons t rest =>
    refine (h t s rest hr hs).mono fun a used next hk s' hc => ?_
    -- either the cut is here, or the next token is the same
    rcases hc.cons hr with hsp | ⟨rest', hr', -⟩
    · exact .inl (hends s' hsp)
    · exact hk s' rest' hr' hc

end

end

namespace TokenStream

variable {eof t : Token} {n : Nat}

/-! ## Expressions -/

theorem reject_ends {α : Type} {s : TokenStream} (h : s.Spent eof) (f : SyntaxFault) :
    (s.reject f : Reading α s).Ends eof := h.report _

theorem expect_eq {s : TokenStream} {rest : List Token} {k : Kind} (h : s.rest = t :: rest) (f : SyntaxFault) :
    s.expect k f = if t.kind = k then .done t s.advance (left_advance_lt h) else s.reject f := by
  unfold expect
  split
  · rename_i h'
    rw [h] at h'
    cases h'
  · rename_i h'
    rw [h] at h'
    cases h'
    rfl

theorem expect_viable (n : Nat) (k : Kind) (f : SyntaxFault) : Viable eof n fun s => s.expect k f := by
  refine .of_tokens (fun s hs => ?_) (fun s => expect_meets s k f) fun t => ?_
  · unfold expect
    split
    · exact reject_ends hs f
    · rename_i hr
      exact absurd hr hs.not_cons
  · by_cases hk : t.kind = k
    · refine (ViableOn.token t).congr fun s rest hr => ?_
      rw [expect_eq hr, if_pos hk]
    · refine .of_meets fun s rest hr Q => ?_
      rw [expect_eq hr, if_neg hk]
      exact reject_meets f

theorem number_viable (n : Nat) (t : Token) (v : Option Literal) (f : SyntaxFault) :
    ViableOn eof n t fun s _ hr => number t v f s.advance (left_advance_lt hr) := by
  cases v with
  | some v => exact .token _
  | none => exact .of_meets fun s rest hr Q => errors_report_ne s.advance t f

theorem operand_ends {s : TokenStream} (h : s.Spent eof) : (operand s).Ends eof := by
  rw [operand]
  split
  · exact reject_ends h _
  · rename_i hr
    exact absurd hr h.not_cons

theorem operand_viable (hx : ∀ least, Viable eof n (expr least)) : Viable eof (n + 1) operand := by
  have hsound : ∀ s, (operand s).Meets s fun e used _ => ReadsOperand e used :=
    fun s => operand_meets fun s' _ least hleast => expr_meets s' hleast
  refine .of_tokens (fun s hs => operand_ends hs) hsound fun t => ?_
  cases hk : t.kind with
  | int => exact (number_viable _ t _ _).congr fun s rest hr => by rw [operand_eq hr, hk]
  | float => exact (number_viable _ t _ _).congr fun s rest hr => by rw [operand_eq hr, hk]
  | string => exact (ViableOn.token _).congr fun s rest hr => by rw [operand_eq hr, hk]
  | ident => exact (ViableOn.token _).congr fun s rest hr => by rw [operand_eq hr, hk]
  | lparen =>
    have h := (hx Kind.weakest).bind (fun inner => (expect_viable n .rparen .unclosedGroup).map fun close _ =>
      Expr.group ⟨t.pos, ⟨t.pos, close.pos⟩⟩ inner) n.le_succ
    exact h.behind.past.congr fun s rest hr => by rw [operand_eq hr, hk]
  | bang | minus =>
    have h := (hx Kind.signStrength).map fun e _ => Expr.signNode t e
    exact h.behind.past.congr fun s rest hr => by rw [operand_eq hr, hk]
  | _ =>
    refine .of_meets fun s rest hr Q => ?_
    rw [operand_eq hr, hk]
    exact reject_meets _

/-- Where a left side fits its operator, they join with any right side, in any stream. -/
theorem joined_eq {left : Expr} {op : Token} (h : op.kind = .assign → ∃ p n, left = .name p n) (right : Expr)
    (s s' : TokenStream) : joined left op right s' = ((joined left op right s).1, s') := by
  by_cases hk : op.kind = .assign
  · obtain ⟨p, n, rfl⟩ := h hk
    rw [joined_assign hk, joined_assign hk]
  · rw [joined_operator hk, joined_operator hk]

theorem operators_eq {start s : TokenStream} {least : Nat} {left : Expr} {op : Token} {rest : List Token}
    (lt : s.left < start.left) (h : s.rest = op :: rest) (hop : least < op.kind.strength) :
    operators start least left s lt =
      (expr op.kind.rightStrength s.advance).chain (left_lt_trans (left_advance_lt h) lt) fun right next lt' =>
        operators start least (joined left op right next).1 (joined left op right next).2
          (left_joined left op right next ▸ left_lt_trans lt' (left_lt_trans (left_advance_lt h) lt)) := by
  rw [operators]
  split
  · rename_i h'
    rw [h] at h'
    cases h'
  · rename_i op' rest' h'
    rw [h] at h'
    cases h'
    rw [if_pos hop]
    cases expr op.kind.rightStrength s.advance <;> rfl

theorem operators_ends {start s : TokenStream} (h : s.Spent eof) (least : Nat) (left : Expr)
    (lt : s.left < start.left) : (operators start least left s lt).Ends eof := by
  rw [operators_stop lt (by rw [h.rest]; exact Nat.zero_le _)]
  exact h

theorem operators_viable (hx : ∀ least, Viable eof n (expr least)) (least : Nat) (left : Expr) :
    ViableBehind eof n fun start s lt => operators start least left s lt := by
  refine ⟨fun start s lt h => operators_ends h least left lt, ?_⟩
  induction n generalizing left with
  | zero => exact fun start s lt hs => absurd hs (Nat.not_lt_zero _)
  | succ n ih =>
    intro start s lt hs
    replace ih := ih fun least => (hx least).mono n.le_succ
    by_cases hstop : ahead s.rest ≤ least
    · rw [operators_stop lt hstop]
      refine fun hn => ⟨hn, [], rfl, fun start' s' lt' hc => ?_⟩
      rcases hc.ahead with hsp | ha
      · exact .inl (operators_ends hsp least left lt')
      · exact .inr ⟨s', lt', operators_stop lt' (ha ▸ hstop), hc⟩
    · obtain ⟨op, rest, hr, hop⟩ : ∃ op rest, s.rest = op :: rest ∧ least < op.kind.strength := by
        cases hr : s.rest with
        | nil => exact absurd (by rw [hr]; exact Nat.zero_le _) hstop
        | cons op rest => exact ⟨op, rest, rfl, Nat.not_le.mp (by rwa [hr] at hstop)⟩
      have hlt := left_advance_lt hr
      rw [operators_eq lt hr hop]
      refine .past (rest_advance hr) s.errors_advance
        (((hx op.kind.rightStrength).keeps s.advance (by omega)).chain fun right next lt' => ?_)
      have hleft := left_joined left op right next
      refine (ih _ start _ _ (by omega)).behind fun he => ?_
      -- whether the two sides can be joined is up to the left one, which is in front of the cut
      obtain ⟨hj, ha⟩ := joined_clean he
      rw [hj] at he
      refine ⟨he, [], by rw [hj]; rfl, fun b used next' hk used' hq start' s' lt' hc => ?_⟩
      rw [hj] at hk
      rcases hc.cons hr with hsp | ⟨rest', hr', hc'⟩
      · exact .inl (operators_ends hsp least left lt')
      · rw [operators_eq lt' hr' hop]
        refine (hq s'.advance hc').chain (fun s₁ lt₁ hc₁ => ?_) fun right' s₁ lt₁ hsp => ?_
        · simp only [joined_eq ha right next s₁]
          exact hk start' s₁ _ hc₁
        · simp only [joined_eq ha right' s s₁]
          exact operators_ends hsp ..

theorem expr_eq (least : Nat) (s : TokenStream) :
    expr least s = (operand s).follow fun e next lt => operators s least e next lt := by
  rw [expr]
  cases operand s <;> rfl

theorem expr_viable (n least : Nat) : Viable eof n (expr least) := by
  induction n generalizing least with
  | zero =>
    refine ⟨fun s hs => ?_, fun s hs => absurd hs (Nat.not_lt_zero _)⟩
    rw [expr_eq]
    exact (operand_ends hs).follow fun e s' lt h => operators_ends h least e lt
  | succ n ih =>
    have h := (operand_viable ih).follow (fun e => operators_viable ih least e) (Nat.le_refl _)
    rwa [funext (expr_eq least)]

/-! ## Statements -/

theorem finish_viable (n : Nat) (first : Token) (f : SyntaxFault) (node : Place → Stmt) :
    Viable eof n (finish first f node) :=
  (expect_viable n .semicolon f).map fun _ last => node (.between first last)

theorem value_viable (n : Nat) (first : Token) (f : SyntaxFault) (node : Expr → Place → Stmt) :
    Viable eof n fun s => (expr Kind.weakest s).bind fun e s _ => finish first f (node e) s :=
  (expr_viable n _).bind (fun e => finish_viable n first f (node e)) n.le_succ

theorem varDecl_viable (n : Nat) (first : Token) : Viable eof n (varDecl first) := by
  refine (expect_viable n .ident .noVariableName).follow (fun name => ?_) n.le_succ
  refine
    (value_viable n first .unendedDeclaration fun e p => .var p name.literal name.pos (some e)).behind.skip .assign
    (finish_viable n first .unendedDeclaration fun p => .var p name.literal name.pos none).behind n.le_succ
    (fun start s lt next lt' h => ?_) fun start s lt h => ?_
  · simp only [h]
    exact Reading.after_after ..
  · simp only [h]

theorem returnStmt_viable (n : Nat) (first : Token) : Viable eof n (returnStmt first) := by
  have hnone : Viable eof n (finish first .unendedReturn (.ret · none)) := finish_viable ..
  have hsome : Viable eof n fun s => (expr Kind.weakest s).bind fun e s _ =>
    finish first .unendedReturn (.ret · (some e)) s := value_viable n first _ fun e p => .ret p (some e)
  refine .of_tokens (fun s hs => ?_) (fun s => returnStmt_meets first s) fun t => ?_
  · unfold returnStmt
    split
    · exact hnone.ends s hs
    · exact hsome.ends s hs
  · by_cases hk : t.kind = .semicolon
    · refine hnone.on.congr fun s rest hr => ?_
      rw [returnStmt, if_pos (by rw [current, hr]; exact hk)]
    · refine hsome.on.congr fun s rest hr => ?_
      rw [returnStmt, if_neg (by rw [current, hr]; exact hk)]

theorem exprStmt_viable (n : Nat) : Viable eof n exprStmt := by
  have h (t : Token) : Viable eof n fun s => (expr Kind.weakest s).bind fun e s _ =>
    finish t .unendedExpression (.expr · e) s := value_viable n t _ fun e p => .expr p e
  refine .of_tokens (fun s hs => (h s.current).ends s hs) (fun s => exprStmt_meets s) fun t => ?_
  refine (h t).on.congr fun s rest hr => ?_
  rw [exprStmt, current, hr]
  rfl

theorem condition_viable (n : Nat) (opening closing : SyntaxFault) : Viable eof n (condition opening closing) :=
  (expect_viable n .lparen opening).bind (fun _ => (expr_viable n _).bind (fun cond =>
    (expect_viable n .rparen closing).map fun _ _ => cond) n.le_succ) n.le_succ

def counted (acc : List Param) (s : TokenStream) : TokenStream :=
  if (acc.drop (maxParams - 1)).isEmpty then s else s.report s.current .tooManyParameters

theorem left_counted (acc : List Param) (s : TokenStream) : (counted acc s).left = s.left := by
  unfold counted
  split <;> rfl

/-- What is read behind the name of a parameter, which is the first of `acc`. -/
def moreParameters (start : TokenStream) (acc : List Param) (s : TokenStream) (lt : s.left < start.left) :
    Reading (List Param) start :=
  match s.skip? .comma with
  | some ⟨next, lt'⟩ => parameters start acc next (left_lt_trans lt' lt)
  | none => ((s.expect .rparen .unclosedParameters).map fun _ _ => acc.reverse).after lt

theorem parameters_eq {start s s' : TokenStream} {acc : List Param} (hs : counted acc s = s')
    (lt : s.left < start.left) (lt' : s'.left < start.left) :
    parameters start acc s lt = (s'.expect .ident .noParameterName).chain lt' fun t next lt₁ =>
      moreParameters start (⟨t.literal, t.pos⟩ :: acc) next (left_lt_trans lt₁ lt') := by
  subst hs
  rw [parameters]
  split
  · rename_i f next moved le hE
    have hE' : (counted acc s).expect .ident .noParameterName = .fail f next moved le := hE
    rw [hE']
    rfl
  · rename_i t next lt' hE
    have hE' : (counted acc s).expect .ident .noParameterName = .done t next lt' := hE
    rw [hE']
    rfl

theorem Spent.counted {s : TokenStream} (h : s.Spent eof) (acc : List Param) : (counted acc s).Spent eof := by
  unfold TokenStream.counted
  split
  · exact h
  · exact h.report _

theorem moreParameters_viable {acc : List Param}
    (h : ViableBehind eof n fun start s lt => parameters start acc s lt) :
    ViableBehind eof n fun start s lt => moreParameters start acc s lt := by
  refine h.skip .comma ((expect_viable n .rparen .unclosedParameters).map fun _ _ => acc.reverse).behind n.le_succ
    (fun start s lt next lt' h => ?_) fun start s lt h => ?_
  · simp only [moreParameters, h]
  · simp only [moreParameters, h]

theorem parameters_ends {start s : TokenStream} (h : s.Spent eof) (acc : List Param) (lt : s.left < start.left) :
    (parameters start acc s lt).Ends eof := by
  rw [parameters_eq rfl lt (left_counted acc s ▸ lt)]
  refine ((expect_viable 0 .ident .noParameterName).ends _ (h.counted acc)).chain fun t s' lt' h' => ?_
  rw [moreParameters, h'.skip?]
  exact (((expect_viable 0 .rparen .unclosedParameters).ends s' h').map _).after _

theorem parameters_viable (n : Nat) (acc : List Param) :
    ViableBehind eof n fun start s lt => parameters start acc s lt := by
  refine ⟨fun start s lt h => parameters_ends h acc lt, ?_⟩
  induction n generalizing acc with
  | zero => exact fun start s lt hs => absurd hs (Nat.not_lt_zero _)
  | succ n ih =>
    intro start s lt hs
    by_cases hacc : (acc.drop (maxParams - 1)).isEmpty = true
    · have hmore (t : Token) : ViableBehind eof n fun start s lt =>
          moreParameters start (⟨t.literal, t.pos⟩ :: acc) s lt :=
        moreParameters_viable ⟨fun start s lt h => parameters_ends h _ lt, ih _⟩
      have h := ((expect_viable (n + 1) .ident .noParameterName).chain hmore (Nat.le_refl _)).keeps start s lt hs
      have heq {start s : TokenStream} (lt : s.left < start.left) := parameters_eq (s := s) (if_pos hacc) lt lt
      simp only [heq]
      exact h
    -- one more parameter leaves an error, however the list goes on
    · refine (parameters_meets start acc s lt).mono ?_
      rintro _ used next ⟨p, new, rfl, -, hle⟩
      refine absurd ?_ hacc
      rw [List.isEmpty_iff, List.drop_eq_nil_iff]
      simp only [List.length_append, List.length_reverse, List.length_cons] at hle
      omega

theorem parameterList_viable (n : Nat) : Viable eof n parameterList := by
  refine (expect_viable n .lparen .noParameterList).follow (fun _ => ?_) n.le_succ
  have hnone : ViableBehind eof n fun start s lt => (.done [] s lt : Reading (List Param) start) :=
    .done fun _ => []
  refine hnone.skip .rparen (parameters_viable n []) n.le_succ (fun start s lt next lt' h => ?_)
    fun start s lt h => ?_
  · simp only [h]
    rfl
  · simp only [h]

/-- What is read behind the first branch of an `if`. -/
def elseBranch (first : Token) (cond : Expr) (yes : Stmt) (start s : TokenStream) (lt : s.left < start.left) :
    Reading Stmt start :=
  match s.skip? .kwElse with
  | some ⟨next, lt'⟩ =>
    ((statement next).map fun no last => .ifElse (.between first last) cond yes no).after (left_lt_trans lt' lt)
  | none => .done (.ifThen (.between first s.prev) cond yes) s lt

theorem ifStmt_eq (first : Token) (s : TokenStream) :
    ifStmt first s = (condition .noIfCondition .unclosedIfCondition s).bind fun cond s _ =>
      (statement s).follow fun yes s₁ lt => elseBranch first cond yes s s₁ lt := by
  rw [ifStmt]
  rfl

theorem elseBranch_viable (h : Viable eof n statement) (first : Token) (cond : Expr) (yes : Stmt) :
    ViableBehind eof n fun start s lt => elseBranch first cond yes start s lt := by
  have hnone : ViableBehind eof n fun start s lt =>
      (.done (.ifThen (.between first s.prev) cond yes) s lt : Reading Stmt start) :=
    .done fun last => Stmt.ifThen (.between first last) cond yes
  refine (h.map fun no last => .ifElse (.between first last) cond yes no).behind.skip .kwElse hnone n.le_succ
    (fun start s lt next lt' h => ?_) fun start s lt h => ?_
  · simp only [elseBranch, h]
  · simp only [elseBranch, h]

theorem ifStmt_viable (h : Viable eof n statement) (first : Token) : Viable eof (n + 1) (ifStmt first) := by
  rw [funext (ifStmt_eq first)]
  refine (condition_viable (n + 1) _ _).bind (fun cond => ?_) (Nat.le_refl _)
  exact h.follow (fun yes => elseBranch_viable h first cond yes) n.le_succ

theorem whileStmt_viable (h : Viable eof n statement) (first : Token) : Viable eof (n + 1) (whileStmt first) := by
  rw [funext (whileStmt.eq_def first)]
  exact (condition_viable (n + 1) _ _).bind (fun cond => h.map _) (Nat.le_refl _)

theorem funcDecl_viable (h : ViableBehind eof n fun start s lt => block start [] s lt) (first : Token) :
    Viable eof (n + 1) (funcDecl first) := by
  rw [funext (funcDecl.eq_def first)]
  refine (expect_viable (n + 1) _ _).bind (fun name => ?_) (Nat.le_succ _)
  refine (parameterList_viable (n + 1)).bind (fun params => ?_) (Nat.le_succ _)
  exact (expect_viable (n + 1) _ _).follow (fun _ => h.map _) (Nat.le_refl _)

theorem statement_ends {s : TokenStream} (h : s.Spent eof) : (statement s).Ends eof := by
  rw [statement]
  split
  · exact (exprStmt_viable 0).ends s h
  · rename_i hr
    exact absurd hr h.not_cons

theorem statement_viable (h : Viable eof n statement)
    (hB : ViableBehind eof n fun start s lt => block start [] s lt) :
    Viable eof (n + 1) statement := by
  have hsound (s : TokenStream) :
      (statement s).Meets s fun st used next => ReadsStmt st used next ∧ st.declares = false :=
    (statement_block_sound s).1
  refine .of_tokens (fun s hs => statement_ends hs) hsound fun t => ?_
  cases hk : t.kind with
  | kwIf =>
    exact ((ifStmt_viable h t).mono n.le_succ).behind.past.congr fun s rest hr => by rw [statement_eq hr, hk]
  | kwWhile =>
    exact ((whileStmt_viable h t).mono n.le_succ).behind.past.congr fun s rest hr => by rw [statement_eq hr, hk]
  | kwReturn => exact (returnStmt_viable n t).behind.past.congr fun s rest hr => by rw [statement_eq hr, hk]
  | kwPrint =>
    have hp : Viable eof n (printStmt t) := value_viable n t _ fun e p => .print p e
    exact hp.behind.past.congr fun s rest hr => by rw [statement_eq hr, hk]
  | lbrace =>
    have hb := hB.map fun body last => Stmt.block (.between t last) body
    exact hb.past.congr fun s rest hr => by rw [statement_eq hr, hk]
  | _ => exact (exprStmt_viable (n + 1)).on.congr fun s rest hr => by rw [statement_eq hr, hk]

/-! ## Declarations -/

/-- What a reading makes of a declaration: the statement, or a bad one where it was given up. -/
def settled (first : Token) {s : TokenStream} : Reading Stmt s → Stmt × TokenStream
  | .done st next _ => (st, next)
  | .fail f next moved _ => (.bad (.between first (next.recover moved).prev) f.message, next.recover moved)

theorem declaration_eq {s : TokenStream} {first : Token} {rest : List Token} (h : s.rest = first :: rest) :
    (declaration s first rest h).1 = settled first (attempt s first (left_advance_lt h)) := by
  rw [declaration]
  split
  · rename_i heq
    exact (congrArg (settled first) heq).symm
  · rename_i heq
    exact (congrArg (settled first) heq).symm

theorem keeps_settled {s next : TokenStream} {r : Reading Stmt s} {st : Stmt} (h : r.Keeps eof st next)
    (first : Token) :
    (settled first r).2.Spent eof ∨ (settled first r).1 = st ∧ Cut eof next (settled first r).2 := by
  rcases h with hend | ⟨next', lt, rfl, hc⟩
  · cases r with
    | done => exact .inl hend
    | fail f next' moved le => exact .inl (Spent.recover hend moved)
  · exact .inr ⟨rfl, hc⟩

/-- A declaration that is read without an error is read where the stream is cut short, or that is given up at the
end. -/
def DeclarationViable (eof : Token) (n : Nat) : Prop :=
  ∀ (s : TokenStream) (first : Token) (rest : List Token) (h : s.rest = first :: rest), s.left < n →
    (declaration s first rest h).1.2.errors = #[] →
      ∀ (s' : TokenStream) (rest' : List Token) (h' : s'.rest = first :: rest'), Cut eof s s' →
        (declaration s' first rest' h').1.2.Spent eof ∨
          (declaration s' first rest' h').1.1 = (declaration s first rest h).1.1 ∧
            Cut eof (declaration s first rest h).1.2 (declaration s' first rest' h').1.2

theorem attempt_viable (hS : Viable eof (n + 1) statement)
    (hB : ViableBehind eof n fun start s lt => block start [] s lt) (first : Token) :
    ViableOn eof (n + 1) first fun s _ hr => attempt s first (left_advance_lt hr) := by
  cases hk : first.kind with
  | kwFn =>
    exact ((funcDecl_viable hB first).mono n.le_succ).behind.past.congr fun s rest hr => by rw [attempt, hk]
  | kwVar => exact (varDecl_viable n first).behind.past.congr fun s rest hr => by rw [attempt, hk]
  | _ => exact hS.on.congr fun s rest hr => by rw [attempt, hk]

theorem declaration_viable (hS : Viable eof (n + 1) statement)
    (hB : ViableBehind eof n fun start s lt => block start [] s lt) : DeclarationViable eof (n + 1) := by
  intro s first rest h hs
  have hx : (attempt s first (left_advance_lt h)).Meets s _ := attempt_viable hS hB first s rest h hs
  simp only [declaration_eq]
  revert hx
  cases attempt s first (left_advance_lt h) with
  | fail f next moved le =>
    intro hx hn
    exact absurd ((errors_recover moved next).symm.trans hn) hx
  | done st next lt =>
    intro hx hn s' rest' h' hc
    obtain ⟨-, -, -, hk⟩ := hx hn
    exact keeps_settled (hk s' rest' h' hc) first

theorem block_nil {start s : TokenStream} (acc : List Stmt) (lt : s.left < start.left) (h : s.rest = []) :
    block start acc s lt = Reading.after (s.reject .unclosedBlock) lt := by
  rw [block]
  split
  · rfl
  · rename_i hr
    rw [h] at hr
    cases hr

theorem block_cons {start s : TokenStream} {rest : List Token} (acc : List Stmt) (lt : s.left < start.left)
    (h : s.rest = t :: rest) : block start acc s lt =
      if t.kind = .rbrace then .done acc.reverse s.advance (left_lt_trans (left_advance_lt h) lt)
      else block start ((declaration s t rest h).1.1 :: acc) (declaration s t rest h).1.2
        (left_lt_trans (declaration s t rest h).2 lt) := by
  rw [block]
  split
  · rename_i hr
    rw [h] at hr
    cases hr
  · rename_i hr
    rw [h] at hr
    cases hr
    rfl

theorem block_ends {start s : TokenStream} (h : s.Spent eof) (acc : List Stmt) (lt : s.left < start.left) :
    (block start acc s lt).Ends eof := by
  rw [block_nil acc lt h.rest]
  exact (reject_ends h _).after lt

theorem block_viable (hD : DeclarationViable eof (n + 1))
    (ih : ∀ acc, ViableBehind eof n fun start s lt => block start acc s lt) (acc : List Stmt) :
    ViableBehind eof (n + 1) fun start s lt => block start acc s lt := by
  refine ⟨fun start s lt h => block_ends h acc lt, fun start s lt hs => ?_⟩
  cases hr : s.rest with
  | nil =>
    rw [block_nil acc lt hr]
    exact .after (reject_meets _) lt
  | cons t rest =>
    rw [block_cons acc lt hr]
    by_cases hk : t.kind = .rbrace
    · rw [if_pos hk]
      intro hn
      rw [errors_advance] at hn
      refine ⟨hn, [t], rest_advance hr, fun start' s' lt' hc => ?_⟩
      rcases hc.cons hr with hsp | ⟨rest', hr', hc'⟩
      · exact .inl (block_ends hsp acc lt')
      · exact .inr ⟨s'.advance, _, by rw [block_cons acc lt' hr', if_pos hk], hc'⟩
    · rw [if_neg hk]
      have hlt := (declaration s t rest hr).2
      refine ((ih _).keeps start _ _ (by omega)).behind fun hn => ?_
      obtain ⟨he, used, hu, -⟩ := (statement_block_sound s).2.1 t rest hr hn
      refine ⟨he, used, hu, fun l used' next hq start' s' lt' hc => ?_⟩
      rcases hc.cons hr with hsp | ⟨rest', hr', -⟩
      · exact .inl (block_ends hsp acc lt')
      · rw [block_cons acc lt' hr', if_neg hk]
        rcases hD s t rest hr hs hn s' rest' hr' hc with hsp | ⟨hst, hc'⟩
        · exact .inl (block_ends hsp _ _)
        · rw [hst]
          exact hq start' _ _ hc'

theorem statement_block_viable (n : Nat) : Viable eof n statement ∧ DeclarationViable eof n ∧
    ∀ acc, ViableBehind eof n fun start s lt => block start acc s lt := by
  induction n with
  | zero =>
    refine ⟨⟨fun s hs => statement_ends hs, ?_⟩, ?_, fun acc => ⟨fun start s lt hs => block_ends hs acc lt, ?_⟩⟩
    · exact fun s hs => absurd hs (Nat.not_lt_zero _)
    · exact fun s first rest h hs => absurd hs (Nat.not_lt_zero _)
    · exact fun start s lt hs => absurd hs (Nat.not_lt_zero _)
  | succ n ih =>
    have hS := statement_viable ih.1 (ih.2.2 [])
    have hD := declaration_viable hS (ih.2.2 [])
    exact ⟨hS, hD, block_viable hD ih.2.2⟩

theorem declarations_cons {s : TokenStream} {rest : List Token} (acc : List Stmt) (h : s.rest = t :: rest) :
    declarations acc s = declarations ((declaration s t rest h).1.1 :: acc) (declaration s t rest h).1.2 := by
  rw [declarations]
  split
  · rename_i hr
    rw [h] at hr
    cases hr
  · rename_i hr
    rw [h] at hr
    cases hr
    rfl

theorem Spent.declarations {s : TokenStream} (h : s.Spent eof) (acc : List Stmt) :
    declarations acc s = (acc.reverse, s) := by
  rw [TokenStream.declarations]
  split
  · rfl
  · rename_i hr
    exact absurd hr h.not_cons

/-- Where a text is read without an error, the text cut short has errors at its end only. -/
theorem declarations_spent {s s' : TokenStream} (acc : List Stmt) (hn : (declarations acc s).2.errors = #[])
    (hc : Cut eof s s') : (declarations acc s').2.Spent eof := by
  induction hl : s.left using Nat.strongRecOn generalizing acc s s' with
  | ind n ih =>
    subst hl
    rcases hc.cases with hsp | ⟨t, rest, rest', hr, hr', -⟩
    · rw [hsp.declarations]
      exact hsp
    · rw [declarations_cons acc hr] at hn
      rw [declarations_cons acc hr']
      have he := (declarations_sound _ _ hn).1
      have hD := (statement_block_viable (s.left + 1)).2.1 s t rest hr (Nat.lt_succ_self _) he s' rest' hr' hc
      rcases hD with hsp | ⟨hst, hc'⟩
      · rw [hsp.declarations]
        exact hsp
      · rw [hst]
        exact ih _ (declaration s t rest hr).2 _ hn hc' rfl

/-! ## Whole texts -/

theorem ofTokens_cons {front : List Token} (h : ∀ t ∈ front, t.kind ≠ .eof) (hk : eof.kind = .eof)
    (more : List Token) : ofTokens (front ++ eof :: more) = ⟨front.headD eof, front, eof, #[]⟩ := by
  have htake : (front ++ eof :: more).takeWhile (·.kind != .eof) = front := by
    rw [List.takeWhile_append_of_pos (by simpa using h), List.takeWhile_cons_of_neg (by simp [hk]), List.append_nil]
  have hfind : (front ++ eof :: more).find? (·.kind == .eof) = some eof :=
    List.find?_eq_some_iff_append.mpr ⟨by simp [hk], front, more, rfl, by simpa using h⟩
  simp only [ofTokens, htake, hfind, Option.getD_some]

theorem ofTokens_append {front : List Token} (h : ∃ t ∈ front, t.kind = .eof) (more : List Token) :
    ofTokens (front ++ more) = ofTokens front := by
  have hsome : (front.find? (·.kind == .eof)).isSome = true := by simpa using h
  obtain ⟨t, ht⟩ := Option.isSome_iff_exists.mp hsome
  obtain ⟨hk, xs, ys, rfl, hxs⟩ := List.find?_eq_some_iff_append.mp ht
  have hk : t.kind = .eof := by simpa using hk
  have hxs : ∀ x ∈ xs, x.kind ≠ .eof := by simpa using hxs
  rw [List.append_assoc, List.cons_append, ofTokens_cons hxs hk, ofTokens_cons hxs hk]

theorem ofTokens_cut {front : List Token} {more : List Token} (h : ∀ t ∈ front, t.kind ≠ .eof) (hne : front ≠ [])
    (hk : eof.kind = .eof) : Cut eof (ofTokens (front ++ more)) (ofTokens (front ++ [eof])) := by
  obtain ⟨t, rest, rfl⟩ := List.exists_cons_of_ne_nil hne
  have htake : ((t :: rest) ++ more).takeWhile (·.kind != .eof) = (t :: rest) ++ more.takeWhile (·.kind != .eof) :=
    List.takeWhile_append_of_pos (by simpa using h)
  rw [ofTokens_cons h hk]
  refine ⟨?_, ?_, rfl, hk, rfl⟩
  · simp only [ofTokens, htake]
    rfl
  · simp only [ofTokens, htake]
    exact List.prefix_append ..

end TokenStream

theorem parse_errors (tokens : List Token) :
    (parse tokens).errors = (declarations [] (ofTokens tokens)).2.errors.toList := rfl

theorem parse_cut_errors {tokens front : List Token} {eof : Token} (h : (parse tokens).errors = [])
    (hfront : front <+: tokens) (hk : eof.kind = .eof) :
    ∀ e ∈ (parse (front ++ [eof])).errors, e.pos = eof.pos ∧ e.lexeme = [] := by
  obtain ⟨more, rfl⟩ := hfront
  by_cases hmem : ∃ t ∈ front, t.kind = .eof
  · have hsame : (parse (front ++ [eof])).errors = (parse (front ++ more)).errors := by
      rw [parse_errors, parse_errors, ofTokens_append hmem, ofTokens_append hmem]
    rw [hsame, h]
    exact fun e he => absurd he List.not_mem_nil
  · have hmem : ∀ t ∈ front, t.kind ≠ .eof := fun t ht hk => hmem ⟨t, ht, hk⟩
    have hspent : (declarations [] (ofTokens (front ++ [eof]))).2.Spent eof := by
      by_cases hne : front = []
      · have hs : (ofTokens (front ++ [eof])).Spent eof := by
          rw [ofTokens_cons hmem hk]
          exact ⟨hne, rfl, hk, by simp⟩
        rw [hs.declarations]
        exact hs
      · exact declarations_spent [] (Array.toList_eq_nil_iff.mp h) (ofTokens_cut hmem hne hk)
    intro e he
    exact hspent.errors e (Array.mem_toList_iff.mp he)

end RegCode
