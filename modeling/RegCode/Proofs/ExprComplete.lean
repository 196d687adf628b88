import RegCode.Proofs.ParseSound

/-!
# Expressions are read back

The tokens of an expression of the grammar are read back as that expression, places apart, and no error is
reported. The induction is on the tree. Reading first comes, with the whole expression on its left, to whatever
follows; it stops there because nothing that follows binds tightly enough to have a part in the expression.
-/

namespace RegCode

/-! ## Tokens of a terminal -/

def Terminal.kind : Terminal → Kind
  | ident _ => .ident
  | string _ => .string
  | int _ => .int
  | float _ => .float
  | mark k => k

section
variable {t : Token} {k : Kind} {n : Bytes}

theorem Token.kind_eq_of_terminal? {x : Terminal} (h : t.terminal? = some x) : t.kind = x.kind := by
  unfold Token.terminal? at h
  split at h <;> rename_i hk
  case h_3 | h_4 =>
    obtain ⟨v, -, rfl⟩ := Option.map_eq_some_iff.mp h
    exact hk
  all_goals
    cases Option.some.inj h
    first | exact hk | rfl

theorem Token.kind_of_mark (h : t.terminal? = some (.mark k)) : t.kind = k :=
  t.kind_eq_of_terminal? h

theorem Token.literal_of_ident (h : t.terminal? = some (.ident n)) : t.literal = n := by
  have hk : t.kind = .ident := t.kind_eq_of_terminal? h
  simp only [Token.terminal?, hk] at h
  cases h
  rfl

end

section
variable {ts : List Token} {x : Terminal} {xs ys : List Terminal}

theorem Spells.cons_inv (h : Spells ts (x :: xs)) : ∃ t us, ts = t :: us ∧ t.terminal? = some x ∧ Spells us xs := by
  cases ts with
  | nil => cases h
  | cons t us => exact ⟨t, us, rfl, spells_cons.mp h⟩

theorem Spells.append_inv (h : Spells ts (xs ++ ys)) : ∃ us vs, ts = us ++ vs ∧ Spells us xs ∧ Spells vs ys := by
  rw [spells_iff, List.map_append] at h
  obtain ⟨us, vs, rfl, hu, hv⟩ := List.map_eq_append_iff.mp h
  exact ⟨us, vs, rfl, spells_iff.mpr hu, spells_iff.mpr hv⟩

theorem Spells.nil_inv (h : Spells ts []) : ts = [] :=
  List.forall₂_nil_right_iff.mp h

end

namespace Reading

/-- The reading is done, its value is as `P` says, `tail` is left and the errors are those of `o`. -/
def Gives {α : Type} {start : TokenStream} (o : TokenStream) (tail : List Token) (P : α → Prop) :
    Reading α start → Prop
  | .done a next _ => P a ∧ next.rest = tail ∧ next.errors = o.errors
  | .fail .. => False

section
variable {α β : Type} {start o : TokenStream} {r : Reading α start} {tail tail' : List Token} {P : α → Prop}
  {Q : β → Prop}

theorem Gives.after {s : TokenStream} {r : Reading α s} (h : r.Gives o tail P) (lt : s.left < start.left) :
    (r.after lt).Gives o tail P := by
  cases r <;> exact h

theorem Gives.past {s : TokenStream} (h : r.Gives s tail P) (he : s.errors = o.errors) : r.Gives o tail P := by
  cases r with
  | done a next lt => exact ⟨h.1, h.2.1, h.2.2.trans he⟩
  | fail => exact h

theorem Gives.follow {f : α → (s : TokenStream) → s.left < start.left → Reading β start} (h : r.Gives o tail P)
    (hf : ∀ a s lt, P a → s.rest = tail → (f a s lt).Gives s tail' Q) : (r.follow f).Gives o tail' Q := by
  cases r with
  | done a s lt => exact (hf a s lt h.1 h.2.1).past h.2.2
  | fail => exact h.elim

theorem Gives.bind {f : α → (s : TokenStream) → s.left < start.left → Reading β s} (h : r.Gives o tail P)
    (hf : ∀ a s lt, P a → s.rest = tail → (f a s lt).Gives s tail' Q) : (r.bind f).Gives o tail' Q :=
  h.follow fun a s lt ha hs => (hf a s lt ha hs).after lt

theorem Gives.mono {P' : α → Prop} (h : r.Gives o tail P) (hP : ∀ a, P a → P' a) : r.Gives o tail P' := by
  cases r with
  | done a next lt => exact ⟨hP a h.1, h.2⟩
  | fail => exact h

theorem Gives.exists_done (h : r.Gives o tail P) :
    ∃ a next lt, r = .done a next lt ∧ P a ∧ next.rest = tail ∧ next.errors = o.errors := by
  cases r with
  | done a next lt => exact ⟨a, next, lt, rfl, h⟩
  | fail => exact h.elim

theorem Gives.map {f : α → Token → β} (h : r.Gives o tail P) (hf : ∀ a last, P a → Q (f a last)) :
    (r.map f).Gives o tail Q := by
  cases r with
  | done a s lt => exact ⟨hf a s.prev h.1, h.2⟩
  | fail => exact h

end

end Reading

/-! ## Strengths -/

theorem Kind.assign_lt_of_joins {k : Kind} (h : k.joins = true) : Kind.assign.strength < k.strength := by
  cases k <;> simp_all [Kind.joins, Kind.strength]

namespace Expr

/-- What binds no tighter than this can follow the expression without a part in it. -/
def rightStrength : Expr → Nat
  | assign .. => Kind.weakest
  | e => e.strength

theorem rightStrength_eq {e : Expr} (h : Kind.assign.strength < e.strength) : e.rightStrength = e.strength := by
  cases e with
  | assign => exact absurd h (Nat.lt_irrefl _)
  | _ => rfl

theorem weakest_lt_strength {e : Expr} (h : e.proper = true) : Kind.weakest < e.strength := by
  cases e with
  | binary p op left right =>
    simp only [proper, Bool.and_eq_true] at h
    exact Nat.lt_trans (by decide) (Kind.assign_lt_of_joins h.1.1.1.1)
  | _ => exact of_decide_eq_true rfl

theorem weakest_le_rightStrength {e : Expr} (h : e.proper = true) : Kind.weakest ≤ e.rightStrength := by
  cases e with
  | assign => exact Nat.le_refl _
  | _ => exact Nat.le_of_lt (weakest_lt_strength h)

end Expr

namespace TokenStream

section
variable {s : TokenStream} {t : Token} {rest : List Token} {k : Kind}

theorem advance_rest (h : s.rest = t :: rest) : s.advance.rest = rest := by
  rw [advance, h]

theorem expect_gives (h : s.rest = t :: rest) (hk : t.kind = k) (f : SyntaxFault) :
    (s.expect k f).Gives s rest (· = t) := by
  unfold expect
  split
  · rename_i h'
    rw [h] at h'
    cases h'
  · rename_i t' rest' h'
    rw [h] at h'
    cases h'
    rw [if_pos hk]
    exact ⟨rfl, advance_rest h, s.errors_advance⟩

theorem skip?_eq_some (h : s.rest = t :: rest) (hk : t.kind = k) :
    s.skip? k = some ⟨s.advance, left_advance_lt h⟩ := by
  unfold skip?
  split
  · rename_i h'
    rw [h] at h'
    cases h'
  · rename_i t' rest' h'
    rw [h] at h'
    cases h'
    rw [if_pos hk]

theorem skip?_eq_none (h : ∀ t rest, s.rest = t :: rest → t.kind ≠ k) : s.skip? k = none := by
  unfold skip?
  split
  · rfl
  · rename_i t rest h'
    rw [if_neg (h t rest h')]

theorem skip?_eq_none_of_kind (h : s.rest = t :: rest) (hk : t.kind ≠ k) : s.skip? k = none := by
  refine skip?_eq_none fun t' rest' h' => ?_
  rw [h] at h'
  cases h'
  exact hk

end

/-! ## Expressions -/

theorem operand_eq {s : TokenStream} {t : Token} {rest : List Token} (h : s.rest = t :: rest) :
    operand s = match t.kind with
      | .int => number t ((Numeral.readInt64 t.literal).map .int) .intOutOfRange s.advance (left_advance_lt h)
      | .float =>
        number t ((Numeral.readBinary64 t.literal).map .float) .floatOutOfRange s.advance (left_advance_lt h)
      | .string => .done (.literal (.ofToken t) (.str t.literal)) s.advance (left_advance_lt h)
      | .ident => .done (.name (.ofToken t) t.literal) s.advance (left_advance_lt h)
      | .lparen =>
        Reading.after ((expr Kind.weakest s.advance).bind fun inner s _ =>
          (s.expect .rparen .unclosedGroup).map fun close _ =>
            .group ⟨t.pos, ⟨t.pos, close.pos⟩⟩ inner) (left_advance_lt h)
      | .bang | .minus =>
        Reading.after ((expr Kind.signStrength s.advance).map fun e _ => .signNode t e) (left_advance_lt h)
      | _ => s.reject .noExpression := by
  rw [operand]
  split
  · rename_i h'
    rw [h] at h'
    cases h'
  · rename_i t' rest' h'
    rw [h] at h'
    cases h'
    rfl

theorem operators_stop {start s : TokenStream} {least : Nat} {left : Expr} (lt : s.left < start.left)
    (h : ahead s.rest ≤ least) : operators start least left s lt = .done left s lt := by
  rw [operators]
  split
  · rfl
  · rename_i op rest h'
    rw [h', ahead] at h
    rw [if_neg (Nat.not_lt.mpr h)]

theorem operators_join {start s next : TokenStream} {least : Nat} {left right e : Expr} {op : Token}
    {rest : List Token} (lt : s.left < start.left) (h : s.rest = op :: rest) (hop : least < op.kind.strength)
    {lt' : next.left < s.advance.left} (hx : expr op.kind.rightStrength s.advance = .done right next lt')
    (hj : joined left op right next = (e, next)) :
    ∃ lt₂, operators start least left s lt = operators start least e next lt₂ := by
  have hpair : ∀ (p : Expr × TokenStream) (ltp : p.2.left < start.left), p = (e, next) →
      ∃ lt₂, operators start least p.1 p.2 ltp = operators start least e next lt₂ := by
    rintro _ ltp rfl
    exact ⟨ltp, rfl⟩
  rw [operators]
  split
  · rename_i h'
    rw [h] at h'
    cases h'
  · rename_i op' rest' h'
    rw [h] at h'
    cases h'
    rw [if_pos hop, hx]
    exact hpair _ _ hj

/-- Reading an expression at `s` comes, with the expression up to `tail` on its left, to the operators that
follow. -/
def Arrives (least : Nat) (s : TokenStream) (tail : List Token) (e : Expr) : Prop :=
  ∃ e' next lt, expr least s = operators s least e' next lt ∧ e'.bare = e.bare ∧ next.rest = tail ∧
    next.errors = s.errors

section
variable {s : TokenStream} {tail : List Token} {least : Nat} {e : Expr}

theorem Arrives.of_operand (h : (operand s).Gives s tail fun e' => e'.bare = e.bare) : Arrives least s tail e := by
  obtain ⟨e', next, lt, hE, hb, hr, he⟩ := h.exists_done
  refine ⟨e', next, lt, ?_, hb, hr, he⟩
  rw [expr, hE]

theorem Arrives.gives (h : Arrives least s tail e) (hstop : ahead tail ≤ least) :
    (expr least s).Gives s tail fun e' => e'.bare = e.bare := by
  obtain ⟨e', next, lt, hE, hb, hr, he⟩ := h
  rw [hE, operators_stop lt (hr ▸ hstop)]
  exact ⟨hb, hr, he⟩

theorem Arrives.join {op : Token} {left : Expr} {rest : List Token} (h : Arrives least s (op :: rest) left)
    (hop : least < op.kind.strength)
    (hr : ∀ next : TokenStream, next.rest = rest →
      (expr op.kind.rightStrength next).Gives next tail fun e' => ∀ left' : Expr, left'.bare = left.bare →
        ∃ e'', (∀ s, joined left' op e' s = (e'', s)) ∧ e''.bare = e.bare) : Arrives least s tail e := by
  obtain ⟨left', s₁, lt, hE, hb, hs, he⟩ := h
  obtain ⟨right, next, lt', hx, hj, hn, he'⟩ := (hr s₁.advance (advance_rest hs)).exists_done
  obtain ⟨e'', hj', hb'⟩ := hj left' hb
  obtain ⟨lt₂, ho⟩ := operators_join lt hs hop hx (hj' next)
  refine ⟨e'', next, lt₂, hE.trans ho, hb', hn, ?_⟩
  rw [he', errors_advance, he]

end

theorem joined_operator {left right : Expr} {op : Token} (h : op.kind ≠ .assign) (s : TokenStream) :
    joined left op right s = (left.operatorNode op right, s) := by
  rw [joined, if_neg h]

theorem joined_assign {p : Place} {n : Bytes} {right : Expr} {op : Token} (h : op.kind = .assign)
    (s : TokenStream) :
    joined (.name p n) op right s = (.assign ⟨op.pos, ⟨p.span.start, right.span.stop⟩⟩ n right, s) := by
  rw [joined, if_pos h]
  rfl

theorem name_of_bare {e : Expr} {n : Bytes} (h : e.bare = .name {} n) : ∃ p, e = .name p n := by
  cases e with
  | name p m =>
    cases h
    exact ⟨p, rfl⟩
  | _ => cases h

theorem literal_arrives {s : TokenStream} {ts tail : List Token} {least : Nat} {p : Place} {v : Literal}
    (hp : (Expr.literal p v).proper = true) (hs : s.rest = ts ++ tail) (hy : Spells ts v.yield) :
    Arrives least s tail (.literal p v) := by
  refine .of_operand ?_
  cases v with
  | int v =>
    obtain ⟨t, us, rfl, ht, hu⟩ := hy.cons_inv
    cases hu.nil_inv
    have hk : t.kind = .int := t.kind_eq_of_terminal? ht
    simp only [Token.terminal?, hk] at ht
    obtain ⟨v', hv, h⟩ := Option.map_eq_some_iff.mp ht
    cases h
    simp only [operand_eq hs, hk, hv, Option.map_some, number]
    exact ⟨rfl, advance_rest hs, s.errors_advance⟩
  | float x =>
    obtain ⟨t, us, rfl, ht, hu⟩ := hy.cons_inv
    cases hu.nil_inv
    have hk : t.kind = .float := t.kind_eq_of_terminal? ht
    simp only [Token.terminal?, hk] at ht
    obtain ⟨x', hx, h⟩ := Option.map_eq_some_iff.mp ht
    cases h
    simp only [operand_eq hs, hk, hx, Option.map_some, number]
    exact ⟨rfl, advance_rest hs, s.errors_advance⟩
  | str text =>
    obtain ⟨t, us, rfl, ht, hu⟩ := hy.cons_inv
    cases hu.nil_inv
    have hk : t.kind = .string := t.kind_eq_of_terminal? ht
    simp only [Token.terminal?, hk] at ht
    cases ht
    simp only [operand_eq hs, hk]
    exact ⟨rfl, advance_rest hs, s.errors_advance⟩
  | unmarked => cases hp

theorem name_arrives {s : TokenStream} {t : Token} {tail : List Token} {least : Nat} {n : Bytes} (p : Place)
    (hs : s.rest = t :: tail) (ht : t.terminal? = some (.ident n)) : Arrives least s tail (.name p n) := by
  refine .of_operand ?_
  have hk : t.kind = .ident := t.kind_eq_of_terminal? ht
  have hn := t.literal_of_ident ht
  simp only [operand_eq hs, hk, hn]
  exact ⟨rfl, advance_rest hs, s.errors_advance⟩

/-- The tokens of an expression, read in front of a `tail` that nothing in it reaches into. -/
theorem expr_arrives {e : Expr} (hp : e.proper = true) {s : TokenStream} {ts tail : List Token} {least : Nat}
    (hs : s.rest = ts ++ tail) (hy : Spells ts e.yield) (hl : least < e.strength ∨ Kind.signStrength ≤ e.strength)
    (hstop : ahead tail ≤ e.rightStrength) : Arrives least s tail e := by
  -- `least` and `tail` are those of the operators around the expression
  induction e generalizing s ts tail least with
  | literal p v => exact literal_arrives hp hs hy
  | name p n =>
    obtain ⟨t, us, rfl, ht, hu⟩ := hy.cons_inv
    cases hu.nil_inv
    exact name_arrives p hs ht
  | hole => cases hp
  | group p e ih =>
    obtain ⟨opening, us, rfl, ho, hu⟩ := hy.cons_inv
    obtain ⟨inner, vs, rfl, hi, hv⟩ := hu.append_inv
    obtain ⟨closing, ws, rfl, hc, hw⟩ := hv.cons_inv
    cases hw.nil_inv
    have hk : opening.kind = .lparen := opening.kind_of_mark ho
    have hk' : closing.kind = .rparen := closing.kind_of_mark hc
    have hs' : s.advance.rest = inner ++ closing :: tail := by
      rw [advance_rest hs]
      simp
    -- in front of a closing bracket everything is joined
    have hweak : ahead (closing :: tail) ≤ Kind.weakest := by
      rw [ahead, hk']
      decide
    have hx := (ih hp hs' hi (.inl (Expr.weakest_lt_strength hp))
      (Nat.le_trans hweak (Expr.weakest_le_rightStrength hp))).gives hweak
    refine .of_operand ?_
    simp only [operand_eq hs, hk]
    refine .past (.after (hx.bind fun e' s' _ he' hr => ?_) _) s.errors_advance
    exact (expect_gives hr hk' _).map fun _ _ _ => by simp [Expr.bare, he']
  | unary p op e ih =>
    simp only [Expr.proper_unary, Bool.and_eq_true, decide_eq_true_eq] at hp
    obtain ⟨⟨hop, hle⟩, hp⟩ := hp
    obtain ⟨t, us, rfl, ht, hu⟩ := hy.cons_inv
    have hk : t.kind = op := t.kind_of_mark ht
    have hx := (ih hp (advance_rest hs) hu (.inr hle) (by
      rw [Expr.rightStrength_eq (Nat.lt_of_lt_of_le (by decide) hle)]
      exact Nat.le_trans (ahead_le_sign tail) hle)).gives (ahead_le_sign tail)
    have hnode : ((expr Kind.signStrength s.advance).map fun e _ => Expr.signNode t e).Gives s tail fun e' =>
        e'.bare = (Expr.unary p op e).bare :=
      (hx.map fun e' _ he' => by simp [Expr.signNode, Expr.bare, he', hk]).past s.errors_advance
    refine .of_operand ?_
    cases op with
    | bang | minus =>
      simp only [operand_eq hs, hk]
      exact hnode.after _
    | _ => cases hop
  | binary p op left right ihl ihr =>
    simp only [Expr.proper_binary, Bool.and_eq_true, decide_eq_true_eq] at hp
    obtain ⟨⟨⟨⟨hj, hll⟩, hlr⟩, hpl⟩, hpr⟩ := hp
    have hassign := Kind.assign_lt_of_joins hj
    have hne : op ≠ .assign := fun h => Nat.lt_irrefl _ (h ▸ hassign)
    have hlt : least < op.strength := by
      have := op.strength_lt
      simp only [Expr.strength] at hl
      omega
    obtain ⟨ls, us, rfl, hls, hu⟩ := hy.append_inv
    obtain ⟨t, rs, rfl, ht, hrs⟩ := hu.cons_inv
    have hk : t.kind = op := t.kind_of_mark ht
    rw [List.append_assoc] at hs
    have hleft := ihl hpl hs hls (.inl (Nat.lt_of_lt_of_le hlt hll)) (by
      rw [Expr.rightStrength_eq (Nat.lt_of_lt_of_le hassign hll), List.cons_append, ahead, hk]
      exact hll)
    -- the left side stops in front of the operator, which then takes it
    refine hleft.join (hk ▸ hlt) fun next hn => ?_
    rw [hk, Kind.rightStrength_eq hne]
    have hright := (ihr hpr hn hrs (.inl hlr) (by
      rw [Expr.rightStrength_eq (Nat.lt_trans hassign hlr)]
      exact Nat.le_trans hstop (Nat.le_of_lt hlr))).gives hstop
    refine hright.mono fun right' hr' left' hl' => ⟨_, joined_operator (hk ▸ hne), ?_⟩
    simp [Expr.operatorNode, Expr.bare, hl', hr', hk]
  | assign p n e ih =>
    obtain ⟨t, us, rfl, ht, hu⟩ := hy.cons_inv
    obtain ⟨op, vs, rfl, hop, hv⟩ := hu.cons_inv
    have hk : op.kind = .assign := op.kind_of_mark hop
    have hlt : least < op.kind.strength := by
      rw [hk]
      exact hl.resolve_right (show ¬Kind.signStrength ≤ Kind.assign.strength by decide)
    refine (name_arrives p hs ht).join hlt fun next hn => ?_
    rw [hk]
    have hx := (ih hp hn hv (.inl (Expr.weakest_lt_strength hp))
      (Nat.le_trans hstop (Expr.weakest_le_rightStrength hp))).gives hstop
    refine hx.mono fun e' he' left' hl' => ?_
    obtain ⟨q, rfl⟩ := name_of_bare hl'
    exact ⟨_, joined_assign hk, by simp [Expr.bare, he']⟩

theorem expr_gives {e : Expr} (hp : e.proper = true) {s : TokenStream} {ts tail : List Token}
    (hs : s.rest = ts ++ tail) (hy : Spells ts e.yield) (hstop : ahead tail ≤ Kind.weakest) :
    (expr Kind.weakest s).Gives s tail fun e' => e'.bare = e.bare :=
  (expr_arrives hp hs hy (.inl (Expr.weakest_lt_strength hp))
    (Nat.le_trans hstop (Expr.weakest_le_rightStrength hp))).gives hstop

end TokenStream

end RegCode
