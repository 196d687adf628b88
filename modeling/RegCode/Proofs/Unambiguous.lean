import RegCode.Proofs.Quotation
import RegCode.Proofs.Vocabulary

/-!
# The form of a program tells the program

What is written for an expression ends in front of a blank, a closing bracket or a semicolon, and its first byte
tells a number, a string, a name and a bracket apart. Behind an opening bracket a sign, the word `group` with an
operand, and an operand with an operator are told apart by what follows. A statement begins with its keyword, or
with a word that is none. What follows a statement is told from it, unless the statement ends with an `if` and an
`else` follows, which no program of the grammar has. So two programs that are read from sources and have the same
form are equal, places apart.
-/

namespace RegCode

/-- What a program is written with apart from names, literals and operators. -/
theorem renderMarks : txt "(" = [40] ∧ txt " " = [32] ∧ txt ")" = [41] ∧ txt "(group " = 40 :: txt "group" ++ [32] ∧
    txt " = " = [32, 61, 32] ∧ txt ";" = [59] ∧ txt "var " = txt "var" ++ [32] ∧
    txt "print " = txt "print" ++ [32] ∧
    txt "\x7b" = [123] ∧ txt " \x7d" = [32, 125] ∧ txt "if (" = txt "if" ++ [32, 40] ∧ txt ") " = [41, 32] ∧
    txt " else " = 32 :: txt "else" ++ [32] ∧ txt "while (" = txt "while" ++ [32, 40] ∧
    txt "fn " = txt "fn" ++ [32] ∧
    txt ") \x7b" = [41, 32, 123] ∧ txt ", " = [44, 32] ∧ txt "\n" = [10] ∧ txt "=" = [61] := by
  decide +kernel

theorem Text.join_cons (sep piece : Bytes) (pieces : List Bytes) :
    Text.join sep (piece :: pieces) = piece ++ pieces.flatMap (sep ++ ·) := by
  induction pieces generalizing piece with
  | nil => simp [Text.join]
  | cons next rest ih =>
    calc Text.join sep (piece :: next :: rest)
        = piece ++ (sep ++ Text.join sep (next :: rest)) := by simp [Text.join]
      _ = piece ++ (next :: rest).flatMap (sep ++ ·) := by
        rw [ih, List.flatMap_cons, List.append_assoc]

/-! ## Literals -/

/-- What may stand behind an expression: a blank, a closing bracket or a semicolon. -/
def Stops (tail : Bytes) : Prop := ∀ b ∈ tail.head?, b = 32 ∨ b = 41 ∨ b = 59

theorem stops_cons {b : UInt8} {tail : Bytes} (h : b = 32 ∨ b = 41 ∨ b = 59) : Stops (b :: tail) := by
  intro x hx
  cases hx
  exact h

theorem Stops.not_word {tail : Bytes} (h : Stops tail) : ∀ b ∈ tail.head?, Lexeme.isWordByte b = false := by
  intro b hb
  rcases h b hb with rfl | rfl | rfl <;> decide

theorem Stops.not_numeric {tail : Bytes} (h : Stops tail) : ∀ b ∈ tail.head?, Binary64.isNumeric b = false := by
  intro b hb
  rcases h b hb with rfl | rfl | rfl <;> decide

theorem Stops.noDigit {tail : Bytes} (h : Stops tail) : Text.NoDigit tail := by
  intro b hb
  rcases h b hb with rfl | rfl | rfl <;> decide

theorem Binary64.exists_mark {x : Binary64} (h : x.word < infiniteWord) :
    ∃ b ∈ Literal.renderFloat x, Text.isDigit b = false := by
  obtain ⟨whole, frac, tail, e, hp, -, hpoint, -⟩ := parts_renderFloat h
  rw [hp.eq]
  rcases hp.ends with ⟨htail, -⟩ | ⟨htail, -⟩
  · refine ⟨46, ?_, by decide⟩
    rw [withPoint, if_neg (by simpa using hpoint htail)]
    simp
  · refine ⟨101, ?_, by decide⟩
    rw [htail, Numeral.exponentText]
    simp

inductive Opening where
  | digit
  | letter
  | quote
  | bracket
  | other
  deriving DecidableEq

def Opening.of (b : UInt8) : Opening :=
  if Text.isDigit b then digit else if Lexeme.isLetter b then letter else if b = 34 then quote
  else if b = 40 then bracket else other

theorem Opening.of_digit {b : UInt8} (h : Text.isDigit b = true) : Opening.of b = digit := if_pos h

theorem Opening.of_letter {b : UInt8} (h : Lexeme.isLetter b = true) : Opening.of b = letter := by
  have hd : ¬Text.isDigit b = true := fun hd => by
    rw [Lexeme.isLetter_of_isDigit hd] at h
    cases h
  rw [Opening.of, if_neg hd, if_pos h]

namespace Literal

def opening : Literal → Opening
  | str _ => .quote
  | _ => .digit

theorem render_head {l : Literal} (h : l.Sourced) (tail : Bytes) :
    ∃ b rest, l.render ++ tail = b :: rest ∧ Opening.of b = l.opening := by
  cases l with
  | int v =>
    obtain ⟨n, hr, -⟩ := render_int h
    obtain ⟨d, ds, heq, hd⟩ := Text.decimal_head n
    exact ⟨d, ds ++ tail, by rw [hr, heq]; rfl, Opening.of_digit hd⟩
  | float x =>
    obtain ⟨b, rest, heq, hb⟩ := Binary64.renderFloat_head (Binary64.word_lt_of_isPlain h)
    exact ⟨b, rest ++ tail, by rw [render, heq]; rfl, Opening.of_digit hb⟩
  | str s => exact ⟨34, _, rfl, rfl⟩
  | unmarked s => exact absurd h id

theorem int_append_ne_float {v : Int64} {x : Binary64} (hv : 0 ≤ v.toInt) (hx : x.isPlain = true)
    {tail tail' : Bytes} (ht : Stops tail) (ht' : Stops tail') :
    (int v).render ++ tail ≠ (float x).render ++ tail' := by
  intro h
  obtain ⟨n, hr, -⟩ := render_int hv
  have hword := Binary64.word_lt_of_isPlain hx
  have hnumeric : ∀ b ∈ Text.decimal n, Binary64.isNumeric b = true :=
    fun b hb => Binary64.isNumeric_of_isDigit (Text.decimal_isDigit n b hb)
  rw [hr, render] at h
  obtain ⟨heq, -⟩ := run_append_inj hnumeric (Binary64.isNumeric_renderFloat hword) ht.not_numeric ht'.not_numeric h
  obtain ⟨b, hb, hd⟩ := Binary64.exists_mark hword
  rw [← heq] at hb
  rw [Text.decimal_isDigit n b hb] at hd
  cases hd

theorem render_append_inj {l l' : Literal} (hl : l.Sourced) (hl' : l'.Sourced) {tail tail' : Bytes}
    (ht : Stops tail) (ht' : Stops tail') (h : l.render ++ tail = l'.render ++ tail') : l = l' ∧ tail = tail' := by
  obtain ⟨b, rest, heq, hb⟩ := render_head hl tail
  obtain ⟨b', rest', heq', hb'⟩ := render_head hl' tail'
  have hopening : l.opening = l'.opening := by
    rw [heq, heq'] at h
    rw [← hb, ← hb', (List.cons.inj h).1]
  cases l with
  | unmarked s => exact absurd hl id
  | int v =>
    cases l' with
    | unmarked s => exact absurd hl' id
    | int v' =>
      obtain ⟨hv, hrest⟩ := Text.integer_legible _ _ _ _ ht.noDigit ht'.noDigit h
      exact ⟨congrArg int (Int64.toInt_inj.mp hv), hrest⟩
    | float x => exact absurd h (int_append_ne_float hl hl' ht ht')
    | str s => cases hopening
  | float x =>
    cases l' with
    | unmarked s => exact absurd hl' id
    | int v => exact absurd h.symm (int_append_ne_float hl' hl ht' ht)
    | float x' =>
      have hx := Binary64.word_lt_of_isPlain hl
      have hx' := Binary64.word_lt_of_isPlain hl'
      obtain ⟨hr, hrest⟩ := run_append_inj (Binary64.isNumeric_renderFloat hx) (Binary64.isNumeric_renderFloat hx')
        ht.not_numeric ht'.not_numeric h
      exact ⟨congrArg float (Binary64.renderFloat_inj hx hx' hr), hrest⟩
    | str s => cases hopening
  | str s =>
    cases l' with
    | unmarked s => exact absurd hl' id
    | int v => cases hopening
    | float x => cases hopening
    | str s' =>
      obtain ⟨hs, hrest⟩ := Text.Quoted.quote_append_inj h
      exact ⟨congrArg str hs, hrest⟩

end Literal

/-! ## Names and operators -/

theorem IsName.append_inj {n n' : Bytes} (hn : IsName n) (hn' : IsName n') {tail tail' : Bytes}
    (ht : ∀ b ∈ tail.head?, Lexeme.isWordByte b = false) (ht' : ∀ b ∈ tail'.head?, Lexeme.isWordByte b = false)
    (h : n ++ tail = n' ++ tail') : n = n' ∧ tail = tail' :=
  run_append_inj hn.2.1 hn'.2.1 ht ht' h

theorem IsName.append_ne {n : Bytes} (hn : IsName n) {b : UInt8} {tail rest : Bytes}
    (hb : Lexeme.isLetter b = false) :
    n ++ tail ≠ b :: rest := by
  obtain ⟨⟨x, w, rfl, hx⟩, -⟩ := hn
  intro h
  rw [(List.cons.inj h).1, hb] at hx
  cases hx

namespace Kind

/-- The operators that stand between two operands, with assignment. -/
def betweens : List Kind :=
  [assign, equal, notEqual, less, lessEqual, greater, greaterEqual, plus, minus, star, slash]

theorem mem_betweens_of_joins {k : Kind} (h : k.joins = true) : k ∈ betweens ∧ k ≠ .assign := by
  cases k <;> first | exact ⟨by decide, by decide⟩ | cases h

/-- The operators have different symbols, none of which has a blank in it or begins like an operand. -/
theorem betweens_spec : ∀ k ∈ betweens, (∀ b ∈ k.symbol, (b != 32) = true) ∧
    (∃ b ∈ k.symbol.head?, Text.isDigit b = false ∧ Lexeme.isLetter b = false ∧ b ≠ 34 ∧ b ≠ 40) ∧
      ∀ k' ∈ betweens, k.symbol = k'.symbol → k = k' := by
  decide +kernel

theorem signs_spec {k : Kind} (h : k.signs = true) :
    ∃ b, k.symbol = [b] ∧ (k = .bang ∧ b = 33 ∨ k = .minus ∧ b = 45) := by
  have hsymbols : Kind.bang.symbol = [33] ∧ Kind.minus.symbol = [45] := by decide +kernel
  cases k <;> first | exact ⟨33, hsymbols.1, .inl ⟨rfl, rfl⟩⟩ | exact ⟨45, hsymbols.2, .inr ⟨rfl, rfl⟩⟩ | cases h

theorem sign_append_inj {k k' : Kind} (hk : k.signs = true) (hk' : k'.signs = true) {tail tail' : Bytes}
    (h : k.symbol ++ tail = k'.symbol ++ tail') : k = k' ∧ tail = tail' := by
  obtain ⟨b, hsym, hb⟩ := signs_spec hk
  obtain ⟨b', hsym', hb'⟩ := signs_spec hk'
  rw [hsym, hsym'] at h
  obtain ⟨rfl, htail⟩ := List.cons.inj h
  refine ⟨?_, htail⟩
  rcases hb with ⟨rfl, rfl⟩ | ⟨rfl, rfl⟩ <;> rcases hb' with ⟨rfl, hb⟩ | ⟨rfl, hb⟩ <;> first | rfl | cases hb

theorem symbol_append_inj {k k' : Kind} (hk : k ∈ betweens) (hk' : k' ∈ betweens) {tail tail' : Bytes}
    (h : k.symbol ++ 32 :: tail = k'.symbol ++ 32 :: tail') : k = k' ∧ tail = tail' := by
  have hblank (t : Bytes) : ∀ b ∈ (32 :: t : Bytes).head?, (b != 32) = false := by
    intro b hb
    cases hb
    decide
  obtain ⟨hsym, htail⟩ := run_append_inj (betweens_spec k hk).1 (betweens_spec k' hk').1 (hblank _) (hblank _) h
  exact ⟨(betweens_spec k hk).2.2 k' hk' hsym, (List.cons.inj htail).2⟩

end Kind

/-! ## Expressions -/

namespace Expr

/-- The expression is one of the grammar, and its leaves are those of a source. -/
def Sourced (e : Expr) : Prop := e.proper = true ∧ ∀ x ∈ e.yield, x.Sourced

section
variable {p : Place} {op : Kind} {n : Bytes} {l : Literal} {e left right : Expr}

theorem Sourced.literal (h : (literal p l).Sourced) : l.Sourced := by
  obtain ⟨hp, hy⟩ := h
  cases l with
  | int v => exact (of_decide_eq_true (hy (.int v) (.head _)) : 0 ≤ v.toInt)
  | float x => exact hy (.float x) (.head _)
  | str s => exact trivial
  | unmarked s => cases hp

theorem Sourced.name (h : (name p n).Sourced) : IsName n := h.2 (.ident n) (.head _)

theorem sourced_name (h : IsName n) : (Expr.name p n).Sourced := by
  refine ⟨rfl, fun x hx => ?_⟩
  rw [yield, List.mem_singleton] at hx
  subst hx
  exact h

theorem Sourced.binary (h : (binary p op left right).Sourced) : op.joins = true ∧ left.Sourced ∧ right.Sourced := by
  obtain ⟨hp, hy⟩ := h
  simp only [proper, Bool.and_eq_true] at hp
  simp only [yield, List.forall_mem_append, List.forall_mem_cons] at hy
  exact ⟨hp.1.1.1.1, ⟨hp.1.2, hy.1⟩, hp.2, hy.2.2⟩

theorem Sourced.unary (h : (unary p op e).Sourced) : op.signs = true ∧ e.Sourced := by
  obtain ⟨hp, hy⟩ := h
  simp only [proper, Bool.and_eq_true] at hp
  simp only [yield, List.forall_mem_cons] at hy
  exact ⟨hp.1.1, hp.2, hy.2⟩

theorem Sourced.group (h : (group p e).Sourced) : e.Sourced := by
  obtain ⟨hp, hy⟩ := h
  simp only [yield, List.cons_append, List.forall_mem_cons, List.forall_mem_append] at hy
  exact ⟨hp, hy.2.1⟩

theorem Sourced.assign (h : (assign p n e).Sourced) : IsName n ∧ e.Sourced := by
  obtain ⟨hp, hy⟩ := h
  simp only [yield, List.forall_mem_cons] at hy
  exact ⟨hy.1, hp, hy.2.2⟩

end

def opening : Expr → Opening
  | literal _ l => l.opening
  | name .. => .letter
  | _ => .bracket

theorem renderThen_head {e : Expr} (h : e.Sourced) (tail : Bytes) :
    ∃ b rest, e.renderThen tail = b :: rest ∧ Opening.of b = e.opening := by
  cases e with
  | literal p l => exact Literal.render_head h.literal tail
  | name p n =>
    obtain ⟨⟨b, w, rfl, hb⟩, -, -⟩ := h.name
    exact ⟨b, w ++ tail, rfl, Opening.of_letter hb⟩
  | hole => cases h.1
  | binary | unary | group | assign =>
    simp only [renderThen, renderMarks]
    exact ⟨40, _, rfl, rfl⟩

theorem opening_ne_other (e : Expr) : e.opening ≠ .other := by
  cases e with
  | literal p l => cases l <;> simp [opening, Literal.opening]
  | _ => simp [opening]

theorem opening_eq {e e' : Expr} (he : e.Sourced) (he' : e'.Sourced) {tail tail' : Bytes}
    (h : e.renderThen tail = e'.renderThen tail') : e.opening = e'.opening := by
  obtain ⟨b, rest, heq, hb⟩ := renderThen_head he tail
  obtain ⟨b', rest', heq', hb'⟩ := renderThen_head he' tail'
  rw [heq, heq'] at h
  rw [← hb, ← hb', (List.cons.inj h).1]

/-- What is written for the expression tells it, and what stands behind it. -/
def Tells (e : Expr) : Prop :=
  ∀ ⦃e' : Expr⦄ ⦃tail tail' : Bytes⦄, e'.Sourced → Stops tail → Stops tail' →
    e.renderThen tail = e'.renderThen tail' → e.bare = e'.bare ∧ tail = tail'

section
variable {p : Place} {n : Bytes} {k : Kind} {e left right : Expr}

theorem tells_literal {l : Literal} (hl : (literal p l).Sourced) : Tells (literal p l) := by
  intro e' tail tail' he' ht ht' h
  have hopening := opening_eq hl he' h
  cases e' with
  | literal p' l' =>
    obtain ⟨rfl, htail⟩ := Literal.render_append_inj hl.literal he'.literal ht ht' h
    exact ⟨rfl, htail⟩
  | hole => cases he'.1
  | name | binary | unary | group | assign => cases l <;> cases hopening

theorem tells_name (hn : IsName n) : Tells (name p n) := by
  intro e' tail tail' he' ht ht' h
  have hopening := opening_eq (sourced_name hn) he' h
  cases e' with
  | name p' n' =>
    obtain ⟨rfl, htail⟩ := hn.append_inj he'.name ht.not_word ht'.not_word h
    exact ⟨rfl, htail⟩
  | hole => cases he'.1
  | literal p' l' => cases l' <;> cases hopening
  | binary | unary | group | assign => cases hopening

def operation (left : Expr) (k : Kind) (tail : Bytes) : Bytes := left.renderThen (32 :: (k.symbol ++ 32 :: tail))

theorem operation_inj {left' : Expr} {k' : Kind} {tail tail' : Bytes} (hl : Tells left) (hl' : left'.Sourced)
    (hk : k ∈ Kind.betweens) (hk' : k' ∈ Kind.betweens) (h : operation left k tail = operation left' k' tail') :
    left.bare = left'.bare ∧ k = k' ∧ tail = tail' := by
  obtain ⟨hleft, hrest⟩ := hl hl' (stops_cons (.inl rfl)) (stops_cons (.inl rfl)) h
  obtain ⟨hsym, htail⟩ := Kind.symbol_append_inj hk hk' (List.cons.inj hrest).2
  exact ⟨hleft, hsym, htail⟩

theorem operation_ne_sign (hl : left.Sourced) (hk : k.signs = true) (x y : Bytes) :
    left.renderThen x ≠ k.symbol ++ y := by
  intro h
  obtain ⟨b, rest, heq, hb⟩ := renderThen_head hl x
  obtain ⟨c, hsym, hc⟩ := Kind.signs_spec hk
  rw [heq, hsym] at h
  have hother : Opening.of c = .other := by
    rcases hc with ⟨-, rfl⟩ | ⟨-, rfl⟩ <;> decide
  rw [(List.cons.inj h).1, hother] at hb
  exact opening_ne_other left hb.symm

theorem isName_group : IsName (txt "group") := by
  refine ⟨⟨103, txt "roup", by decide +kernel, by decide⟩, by decide +kernel, ?_⟩
  have hall : ∀ p ∈ Lexeme.reserved, p.1 ≠ txt "group" := by decide +kernel
  exact fun k hk => hall _ hk rfl

theorem group_ne_sign (hk : k.signs = true) (x y : Bytes) : txt "group" ++ x ≠ k.symbol ++ y :=
  operation_ne_sign (sourced_name (p := {}) isName_group) hk x y

/-- A variable `group` in front of an operator is told from the mark of a group by what follows the blank. -/
theorem operation_ne_group {tail tail' : Bytes} (hl : left.Sourced) (hk : k ∈ Kind.betweens) (he : e.Sourced) :
    operation left k tail ≠ txt "group" ++ 32 :: e.renderThen tail' := by
  intro h
  have hgroup : (Expr.name {} (txt "group")).renderThen (32 :: e.renderThen tail') =
      txt "group" ++ 32 :: e.renderThen tail' :=
    rfl
  rw [← hgroup] at h
  obtain ⟨-, hrest⟩ := tells_name isName_group hl (stops_cons (.inl rfl)) (stops_cons (.inl rfl)) h.symm
  obtain ⟨b, rest, heq, hb⟩ := renderThen_head he tail'
  obtain ⟨-, ⟨c, hc, hdigit, hletter, h34, h40⟩, -⟩ := Kind.betweens_spec k hk
  obtain ⟨sym, hsym⟩ := List.head?_eq_some_iff.mp hc
  rw [heq, hsym] at hrest
  have hother : Opening.of c = .other := by simp [Opening.of, hdigit, hletter, h34, h40]
  have hbc : b = c := (List.cons.inj (List.cons.inj hrest).2).1
  rw [hbc, hother] at hb
  exact opening_ne_other e hb.symm

theorem renderThen_binary (tail : Bytes) :
    (binary p k left right).renderThen tail = 40 :: operation left k (right.renderThen (41 :: tail)) := by
  simp only [renderThen, renderMarks, operation, List.cons_append, List.nil_append, List.append_assoc]

theorem renderThen_assign (tail : Bytes) :
    (assign p n e).renderThen tail = 40 :: operation (name {} n) .assign (e.renderThen (41 :: tail)) := by
  simp only [renderThen, renderMarks, operation, Kind.symbol, List.cons_append, List.nil_append, List.append_assoc]

theorem renderThen_unary (tail : Bytes) :
    (unary p k e).renderThen tail = 40 :: (k.symbol ++ e.renderThen (41 :: tail)) := by
  simp only [renderThen, renderMarks, List.cons_append, List.nil_append]

theorem renderThen_group (tail : Bytes) :
    (group p e).renderThen tail = 40 :: (txt "group" ++ 32 :: e.renderThen (41 :: tail)) := by
  simp only [renderThen, renderMarks, List.cons_append, List.append_assoc, List.nil_append]

theorem Tells.closed {e' : Expr} {tail tail' : Bytes} (h : Tells e) (he' : e'.Sourced)
    (heq : e.renderThen (41 :: tail) = e'.renderThen (41 :: tail')) : e.bare = e'.bare ∧ tail = tail' := by
  obtain ⟨hbare, htail⟩ := h he' (stops_cons (.inr (.inl rfl))) (stops_cons (.inr (.inl rfl))) heq
  exact ⟨hbare, (List.cons.inj htail).2⟩

theorem assign_mem_betweens : Kind.assign ∈ Kind.betweens := .head _

theorem tells_binary (h : (binary p k left right).Sourced) (hleft : Tells left) (hright : Tells right) :
    Tells (binary p k left right) := by
  intro e' tail tail' he' _ _ heq
  have hopening := opening_eq h he' heq
  obtain ⟨hk, hl, -⟩ := h.binary
  obtain ⟨hmem, hne⟩ := Kind.mem_betweens_of_joins hk
  rw [renderThen_binary] at heq
  cases e' with
  | binary p' k' left' right' =>
    obtain ⟨hk', hl', hr'⟩ := he'.binary
    rw [renderThen_binary] at heq
    obtain ⟨hbare, rfl, hrest⟩ :=
      operation_inj hleft hl' hmem (Kind.mem_betweens_of_joins hk').1 (List.cons.inj heq).2
    obtain ⟨hbare', htail⟩ := hright.closed hr' hrest
    exact ⟨by rw [bare, bare, hbare, hbare'], htail⟩
  | assign p' n' value =>
    obtain ⟨hn', -⟩ := he'.assign
    rw [renderThen_assign] at heq
    obtain ⟨-, hk', -⟩ := operation_inj hleft (sourced_name hn') hmem assign_mem_betweens (List.cons.inj heq).2
    exact absurd hk' hne
  | unary p' k' operand =>
    rw [renderThen_unary] at heq
    exact absurd (List.cons.inj heq).2 (operation_ne_sign hl he'.unary.1 _ _)
  | group p' inner =>
    rw [renderThen_group] at heq
    exact absurd (List.cons.inj heq).2 (operation_ne_group hl hmem he'.group)
  | hole => cases he'.1
  | literal p' l' => cases l' <;> cases hopening
  | name => cases hopening

theorem tells_assign (h : (assign p n e).Sourced) (hvalue : Tells e) : Tells (assign p n e) := by
  intro e' tail tail' he' _ _ heq
  have hopening := opening_eq h he' heq
  obtain ⟨hn, -⟩ := h.assign
  have hname : (name {} n).Sourced := sourced_name hn
  rw [renderThen_assign] at heq
  cases e' with
  | binary p' k' left' right' =>
    obtain ⟨hk', hl', -⟩ := he'.binary
    obtain ⟨hmem', hne'⟩ := Kind.mem_betweens_of_joins hk'
    rw [renderThen_binary] at heq
    obtain ⟨-, hk, -⟩ := operation_inj (tells_name hn) hl' assign_mem_betweens hmem' (List.cons.inj heq).2
    exact absurd hk.symm hne'
  | assign p' n' value =>
    obtain ⟨hn', hv'⟩ := he'.assign
    rw [renderThen_assign] at heq
    obtain ⟨hbare, -, hrest⟩ :=
      operation_inj (tells_name hn) (sourced_name hn') assign_mem_betweens assign_mem_betweens (List.cons.inj heq).2
    obtain ⟨hbare', htail⟩ := hvalue.closed hv' hrest
    cases hbare
    exact ⟨by rw [bare, bare, hbare'], htail⟩
  | unary p' k' operand =>
    rw [renderThen_unary] at heq
    exact absurd (List.cons.inj heq).2 (operation_ne_sign hname he'.unary.1 _ _)
  | group p' inner =>
    rw [renderThen_group] at heq
    exact absurd (List.cons.inj heq).2 (operation_ne_group hname assign_mem_betweens he'.group)
  | hole => cases he'.1
  | literal p' l' => cases l' <;> cases hopening
  | name => cases hopening

theorem tells_unary (h : (unary p k e).Sourced) (hoperand : Tells e) : Tells (unary p k e) := by
  intro e' tail tail' he' _ _ heq
  have hopening := opening_eq h he' heq
  obtain ⟨hk, -⟩ := h.unary
  rw [renderThen_unary] at heq
  cases e' with
  | binary p' k' left' right' =>
    rw [renderThen_binary] at heq
    exact absurd (List.cons.inj heq).2.symm (operation_ne_sign he'.binary.2.1 hk _ _)
  | assign p' n' value =>
    rw [renderThen_assign] at heq
    exact absurd (List.cons.inj heq).2.symm (operation_ne_sign (sourced_name he'.assign.1) hk _ _)
  | unary p' k' operand =>
    obtain ⟨hk', hoperand'⟩ := he'.unary
    rw [renderThen_unary] at heq
    obtain ⟨rfl, hrest⟩ := Kind.sign_append_inj hk hk' (List.cons.inj heq).2
    obtain ⟨hbare, htail⟩ := hoperand.closed hoperand' hrest
    exact ⟨by rw [bare, bare, hbare], htail⟩
  | group p' inner =>
    rw [renderThen_group] at heq
    exact absurd (List.cons.inj heq).2.symm (group_ne_sign hk _ _)
  | hole => cases he'.1
  | literal p' l' => cases l' <;> cases hopening
  | name => cases hopening

theorem tells_group (h : (group p e).Sourced) (hinner : Tells e) : Tells (group p e) := by
  intro e' tail tail' he' _ _ heq
  have hopening := opening_eq h he' heq
  have he := h.group
  rw [renderThen_group] at heq
  cases e' with
  | binary p' k' left' right' =>
    obtain ⟨hk', hl', -⟩ := he'.binary
    rw [renderThen_binary] at heq
    exact absurd (List.cons.inj heq).2.symm (operation_ne_group hl' (Kind.mem_betweens_of_joins hk').1 he)
  | assign p' n' value =>
    rw [renderThen_assign] at heq
    exact absurd (List.cons.inj heq).2.symm (operation_ne_group (sourced_name he'.assign.1) assign_mem_betweens he)
  | unary p' k' operand =>
    rw [renderThen_unary] at heq
    exact absurd (List.cons.inj heq).2 (group_ne_sign he'.unary.1 _ _)
  | group p' inner =>
    rw [renderThen_group] at heq
    obtain ⟨hbare, htail⟩ := hinner.closed he'.group
      (List.cons.inj (List.append_cancel_left (List.cons.inj heq).2)).2
    exact ⟨by rw [bare, bare, hbare], htail⟩
  | hole => cases he'.1
  | literal p' l' => cases l' <;> cases hopening
  | name => cases hopening

end

theorem tells (e : Expr) (h : e.Sourced) : Tells e := by
  induction e with
  | literal p l => exact tells_literal h
  | name p n => exact tells_name h.name
  | binary p k left right ihl ihr => exact tells_binary h (ihl h.binary.2.1) (ihr h.binary.2.2)
  | unary p k e ih => exact tells_unary h (ih h.unary.2)
  | group p e ih => exact tells_group h (ih h.group)
  | assign p n e ih => exact tells_assign h (ih h.assign.2)
  | hole => cases h.1

theorem renderThen_ne_brace (e : Expr) (h : e.Sourced) (tail rest : Bytes) : e.renderThen tail ≠ 123 :: rest := by
  intro heq
  obtain ⟨b, text, htext, hb⟩ := renderThen_head h tail
  rw [htext] at heq
  rw [(List.cons.inj heq).1] at hb
  exact opening_ne_other e hb.symm

theorem Tells.finished {e e' : Expr} {tail tail' : Bytes} (h : Tells e) (he' : e'.Sourced)
    (heq : e.renderThen (59 :: tail) = e'.renderThen (59 :: tail')) : e.bare = e'.bare ∧ tail = tail' := by
  obtain ⟨hbare, htail⟩ := h he' (stops_cons (.inr (.inr rfl))) (stops_cons (.inr (.inr rfl))) heq
  exact ⟨hbare, (List.cons.inj htail).2⟩

end Expr

/-! ## Statements -/

namespace Stmt

def Sourced (x : Stmt) : Prop := x.proper = true ∧ ∀ t ∈ x.yield, t.Sourced

def SourcedAll (xs : List Stmt) : Prop := properAll xs = true ∧ ∀ t ∈ yieldAll xs, t.Sourced

section
variable {p : Place} {n : Bytes} {pos : Position} {e : Expr} {x yes no : Stmt} {xs : List Stmt}

theorem Sourced.var {init : Option Expr} (h : (var p n pos init).Sourced) : IsName n ∧ ∀ e ∈ init, e.Sourced := by
  obtain ⟨hp, hy⟩ := h
  refine ⟨hy (.ident n) (by cases init <;> simp [yield]), fun e he => ?_⟩
  cases he
  exact ⟨by simpa [proper] using hp, fun t ht => hy t (by simp [yield, ht])⟩

theorem Sourced.print (h : (print p e).Sourced) : e.Sourced :=
  ⟨h.1, fun t ht => h.2 t (by simp [yield, ht])⟩

theorem Sourced.expr (h : (expr p e).Sourced) : e.Sourced :=
  ⟨h.1, fun t ht => h.2 t (by simp [yield, ht])⟩

theorem Sourced.ret {value : Option Expr} (h : (ret p value).Sourced) : ∀ e ∈ value, e.Sourced := by
  obtain ⟨hp, hy⟩ := h
  intro e he
  cases he
  exact ⟨by simpa [proper] using hp, fun t ht => hy t (by simp [yield, ht])⟩

theorem Sourced.block (h : (block p xs).Sourced) : SourcedAll xs :=
  ⟨h.1, fun t ht => h.2 t (by simp [yield, ht])⟩

theorem Sourced.ifThen (h : (ifThen p e yes).Sourced) : e.Sourced ∧ yes.Sourced := by
  obtain ⟨hp, hy⟩ := h
  simp only [proper, Bool.and_eq_true] at hp
  exact ⟨⟨hp.1.1, fun t ht => hy t (by simp [yield, yieldCond, ht])⟩,
    hp.2, fun t ht => hy t (by simp [yield, ht])⟩

theorem Sourced.ifElse (h : (ifElse p e yes no).Sourced) :
    e.Sourced ∧ yes.Sourced ∧ yes.endsOpen = false ∧ no.Sourced := by
  obtain ⟨hp, hy⟩ := h
  simp only [proper, Bool.and_eq_true, Bool.not_eq_true'] at hp
  obtain ⟨⟨⟨⟨⟨he, -⟩, hyes⟩, hopen⟩, -⟩, hno⟩ := hp
  exact ⟨⟨he, fun t ht => hy t (by simp [yield, yieldCond, ht])⟩, ⟨hyes, fun t ht => hy t (by simp [yield, ht])⟩,
    hopen, hno, fun t ht => hy t (by simp [yield, ht])⟩

theorem Sourced.while (h : (.while p e x : Stmt).Sourced) : e.Sourced ∧ x.Sourced := by
  obtain ⟨hp, hy⟩ := h
  simp only [proper, Bool.and_eq_true] at hp
  exact ⟨⟨hp.1.1, fun t ht => hy t (by simp [yield, yieldCond, ht])⟩,
    hp.2, fun t ht => hy t (by simp [yield, ht])⟩

theorem mem_yieldParams {ps : List Param} {q : Param} (h : q ∈ ps) : .ident q.name ∈ yieldParams ps := by
  induction ps with
  | nil => cases h
  | cons r ps ih =>
    cases ps with
    | nil => simp [yieldParams, List.mem_singleton.mp h]
    | cons r' ps =>
      rcases List.mem_cons.mp h with rfl | h
      · simp [yieldParams]
      · simp [yieldParams, ih h]

theorem Sourced.func {ps : List Param} (h : (func p n pos ps xs).Sourced) :
    IsName n ∧ (∀ q ∈ ps, IsName q.name) ∧ SourcedAll xs := by
  obtain ⟨hp, hy⟩ := h
  simp only [proper, Bool.and_eq_true] at hp
  exact ⟨hy (.ident n) (by simp [yield]), fun q hq => hy (.ident q.name) (by simp [yield, mem_yieldParams hq]),
    hp.2, fun t ht => hy t (by simp [yield, ht])⟩

theorem SourcedAll.cons (h : SourcedAll (x :: xs)) : x.Sourced ∧ SourcedAll xs := by
  obtain ⟨hp, hy⟩ := h
  simp only [properAll, Bool.and_eq_true] at hp
  exact ⟨⟨hp.1, fun t ht => hy t (by simp [yieldAll, ht])⟩, hp.2, fun t ht => hy t (by simp [yieldAll, ht])⟩

end

/-! ### The first word -/

/-- The kind of the first word of a statement; a block has none. -/
def leading : Stmt → Kind
  | var .. => .kwVar
  | print .. => .kwPrint
  | ifThen .. | ifElse .. => .kwIf
  | .while .. => .kwWhile
  | ret .. => .kwReturn
  | func .. => .kwFn
  | expr .. | block .. | bad .. | hole => .ident

def firstWord (text : Bytes) : Kind := Kind.ofWord (text.takeWhile Lexeme.isWordByte)

theorem firstWord_append {w rest : Bytes} (hw : ∀ b ∈ w, Lexeme.isWordByte b = true)
    (hr : ∀ b ∈ rest.head?, Lexeme.isWordByte b = false) : firstWord (w ++ rest) = Kind.ofWord w := by
  rw [firstWord, Lexeme.takeWhile_run hw hr]

theorem ofWord_eq_ident {w : Bytes} (h : ∀ b ∈ w.head?, Lexeme.isLetter b = false) : Kind.ofWord w = .ident := by
  refine Lexeme.ofWord_eq_ident fun k hk => ?_
  obtain ⟨-, -, hne, hletter, -⟩ := Lexeme.reserved_spec _ hk
  obtain ⟨b, w, rfl⟩ := List.exists_cons_of_ne_nil hne
  exact absurd ((hletter b rfl).symm.trans (h b rfl)) (by decide)

theorem firstWord_of_not_letter {b : UInt8} {rest : Bytes} (h : Lexeme.isLetter b = false) :
    firstWord (b :: rest) = .ident := by
  refine ofWord_eq_ident fun x hx => ?_
  rw [List.takeWhile_cons] at hx
  split at hx
  · cases hx
    exact h
  · cases hx

theorem head_of_firstWord {text : Bytes} (h : firstWord text ≠ .ident) :
    ∃ b rest, text = b :: rest ∧ Lexeme.isLetter b = true := by
  cases text with
  | nil => exact absurd (ofWord_eq_ident (by simp)) h
  | cons b rest => exact ⟨b, rest, rfl, by_contra fun hb => h (firstWord_of_not_letter (Bool.eq_false_iff.mpr hb))⟩

theorem firstWord_keyword {w : Bytes} {k : Kind} (hk : (w, k) ∈ Lexeme.reserved) {b : UInt8} (rest : Bytes)
    (hb : Lexeme.isWordByte b = false) : firstWord (w ++ b :: rest) = k := by
  obtain ⟨hkind, -, -, -, hall⟩ := Lexeme.reserved_spec _ hk
  rw [firstWord_append hall, hkind]
  intro x hx
  cases hx
  exact hb

section
variable {p : Place} {n : Bytes} {pos : Position} {e : Expr} {x yes no : Stmt} {xs : List Stmt}

attribute [local simp] renderThen Expr.renderOptional renderMarks

theorem renderThen_var_none (tail : Bytes) :
    (var p n pos none).renderThen tail = txt "var" ++ 32 :: (n ++ 59 :: tail) := by
  simp

theorem renderThen_var_some (tail : Bytes) : (var p n pos (some e)).renderThen tail =
    txt "var" ++ 32 :: (n ++ 32 :: 61 :: 32 :: e.renderThen (59 :: tail)) := by
  simp

theorem renderThen_print (tail : Bytes) :
    (print p e).renderThen tail = txt "print" ++ 32 :: e.renderThen (59 :: tail) := by
  simp

theorem renderThen_expr (tail : Bytes) : (expr p e).renderThen tail = e.renderThen (59 :: tail) := by
  simp

theorem renderThen_block (tail : Bytes) :
    (block p xs).renderThen tail = 123 :: renderAllThen xs (32 :: 125 :: tail) := by
  simp

theorem renderThen_ifThen (tail : Bytes) : (ifThen p e yes).renderThen tail =
    txt "if" ++ 32 :: 40 :: e.renderThen (41 :: 32 :: yes.renderThen tail) := by
  simp

theorem renderThen_ifElse (tail : Bytes) : (ifElse p e yes no).renderThen tail = txt "if" ++ 32 :: 40 ::
    e.renderThen (41 :: 32 :: yes.renderThen (32 :: (txt "else" ++ 32 :: no.renderThen tail))) := by
  simp

theorem renderThen_while (tail : Bytes) : (.while p e x : Stmt).renderThen tail =
    txt "while" ++ 32 :: 40 :: e.renderThen (41 :: 32 :: x.renderThen tail) := by
  simp

theorem renderThen_ret_none (tail : Bytes) : (ret p none).renderThen tail = txt "return" ++ 59 :: tail := by
  simp

theorem renderThen_ret_some (tail : Bytes) :
    (ret p (some e)).renderThen tail = txt "return" ++ 32 :: e.renderThen (59 :: tail) := by
  simp

theorem renderThen_func {ps : List Param} (tail : Bytes) : (func p n pos ps xs).renderThen tail = txt "fn" ++ 32 ::
    (n ++ 40 :: (Text.join (txt ", ") (ps.map (·.name)) ++ 41 :: 32 :: 123 ::
    renderAllThen xs (32 :: 125 :: tail))) := by
  simp

end

theorem firstWord_renderThen {x : Stmt} (h : x.Sourced) (tail : Bytes) :
    firstWord (x.renderThen tail) = x.leading := by
  cases x with
  | var p n pos init =>
    cases init with
    | none =>
      rw [renderThen_var_none]
      exact firstWord_keyword (by simp [Lexeme.reserved, leading]) _ (by decide)
    | some e =>
      rw [renderThen_var_some]
      exact firstWord_keyword (by simp [Lexeme.reserved, leading]) _ (by decide)
  | print p e =>
    rw [renderThen_print]
    exact firstWord_keyword (by simp [Lexeme.reserved, leading]) _ (by decide)
  | ifThen p e yes =>
    rw [renderThen_ifThen]
    exact firstWord_keyword (by simp [Lexeme.reserved, leading]) _ (by decide)
  | ifElse p e yes no =>
    rw [renderThen_ifElse]
    exact firstWord_keyword (by simp [Lexeme.reserved, leading]) _ (by decide)
  | «while» p e x =>
    rw [renderThen_while]
    exact firstWord_keyword (by simp [Lexeme.reserved, leading]) _ (by decide)
  | ret p value =>
    cases value with
    | none =>
      rw [renderThen_ret_none]
      exact firstWord_keyword (by simp [Lexeme.reserved, leading]) _ (by decide)
    | some e =>
      rw [renderThen_ret_some]
      exact firstWord_keyword (by simp [Lexeme.reserved, leading]) _ (by decide)
  | func p n pos ps xs =>
    rw [renderThen_func]
    exact firstWord_keyword (by simp [Lexeme.reserved, leading]) _ (by decide)
  | block p xs =>
    rw [renderThen_block]
    exact firstWord_of_not_letter (by decide)
  | expr p e =>
    rw [renderThen_expr]
    cases e with
    -- a name is a word, but no keyword
    | name q n =>
      obtain ⟨-, hall, hno⟩ := h.expr.name
      rw [Expr.renderThen, firstWord_append hall (stops_cons (.inr (.inr rfl))).not_word]
      exact Lexeme.ofWord_eq_ident hno
    | literal q l =>
      obtain ⟨b, rest, heq, hb⟩ := Expr.renderThen_head h.expr (59 :: tail)
      rw [heq]
      refine firstWord_of_not_letter ?_
      by_contra hletter
      rw [Opening.of_letter (Bool.not_eq_false _ ▸ hletter)] at hb
      cases l <;> cases hb
    | hole => cases h.1
    | binary | unary | group | assign =>
      simp only [Expr.renderThen, renderMarks]
      exact firstWord_of_not_letter (by decide)
  | bad => cases h.1
  | hole => cases h.1

theorem leading_eq {x x' : Stmt} (hx : x.Sourced) (hx' : x'.Sourced) {tail tail' : Bytes}
    (h : x.renderThen tail = x'.renderThen tail') : x.leading = x'.leading := by
  rw [← firstWord_renderThen hx tail, h, firstWord_renderThen hx']

/-! ### What follows -/

/-- The text does not go on with an `else` that would belong to an `if` at the end of the statement. -/
def Follows (x : Stmt) (tail : Bytes) : Prop :=
  x.endsOpen = true → ∀ rest, tail ≠ 32 :: (txt "else" ++ 32 :: rest)

theorem follows_of_not_endsOpen {x : Stmt} {tail : Bytes} (h : x.endsOpen = false) : Follows x tail :=
  fun h' => absurd (h.symm.trans h') (by decide)

theorem follows_of_head {x : Stmt} {tail : Bytes} (h : tail.head? ≠ some 32) : Follows x tail := by
  rintro - rest rfl
  exact h rfl

theorem renderThen_ne_else {x : Stmt} (h : x.Sourced) (tail rest : Bytes) :
    x.renderThen tail ≠ txt "else" ++ 32 :: rest := by
  intro heq
  have hword := firstWord_renderThen h tail
  rw [heq, firstWord_keyword (k := .kwElse) (by simp [Lexeme.reserved]) _ (by decide)] at hword
  cases x <;> cases hword

theorem renderThen_head {x : Stmt} (h : x.Sourced) (tail : Bytes) :
    ∃ b text, x.renderThen tail = b :: text ∧ b ≠ 125 := by
  have hword := firstWord_renderThen h tail
  cases x with
  | block p xs => exact ⟨123, _, renderThen_block tail, by decide⟩
  | expr p e =>
    obtain ⟨b, text, htext, hb⟩ := Expr.renderThen_head h.expr (59 :: tail)
    refine ⟨b, text, (renderThen_expr tail).trans htext, ?_⟩
    rintro rfl
    exact Expr.opening_ne_other e hb.symm
  | bad => cases h.1
  | hole => cases h.1
  | var | print | ifThen | ifElse | «while» | ret | func =>
    obtain ⟨b, text, htext, hb⟩ := head_of_firstWord (hword.trans_ne (by simp [leading]))
    refine ⟨b, text, htext, ?_⟩
    rintro rfl
    exact absurd hb (by decide)

theorem renderThen_ne_close {x : Stmt} (h : x.Sourced) (tail rest : Bytes) : x.renderThen tail ≠ 125 :: rest := by
  obtain ⟨b, text, htext, hb⟩ := renderThen_head h tail
  rw [htext]
  exact fun heq => hb (List.cons.inj heq).1

/-- What is written for the statement tells it, and what stands behind it. -/
def Tells (x : Stmt) : Prop :=
  ∀ ⦃x' : Stmt⦄ ⦃tail tail' : Bytes⦄, x'.Sourced → Follows x tail → Follows x' tail' →
    x.renderThen tail = x'.renderThen tail' → x.bare = x'.bare ∧ tail = tail'

def TellsAll (xs : List Stmt) : Prop :=
  ∀ ⦃xs' : List Stmt⦄ ⦃tail tail' : Bytes⦄, SourcedAll xs' →
    renderAllThen xs (32 :: 125 :: tail) = renderAllThen xs' (32 :: 125 :: tail') →
    bareAll xs = bareAll xs' ∧ tail = tail'

theorem follows_block {x : Stmt} {xs : List Stmt} (h : SourcedAll xs) (tail : Bytes) :
    Follows x (renderAllThen xs (32 :: 125 :: tail)) := by
  intro _ rest heq
  cases xs with
  | nil =>
    have helse : (txt "else").head? = some 101 := by decide +kernel
    have hhead := congrArg List.head? (List.cons.inj heq).2
    rw [List.head?_append, helse] at hhead
    cases hhead
  | cons y ys =>
    simp only [renderAllThen, renderMarks, List.cons_append, List.nil_append] at heq
    exact renderThen_ne_else h.cons.1 _ _ (List.cons.inj heq).2

theorem tellsAll_nil : TellsAll [] := by
  intro xs' tail tail' hxs' h
  cases xs' with
  | nil => exact ⟨rfl, (List.cons.inj (List.cons.inj h).2).2⟩
  | cons y ys =>
    simp only [renderAllThen, renderMarks, List.cons_append, List.nil_append] at h
    exact absurd (List.cons.inj h).2.symm (renderThen_ne_close hxs'.cons.1 _ _)

theorem tellsAll_cons {x : Stmt} {xs : List Stmt} (h : SourcedAll (x :: xs)) (hx : Tells x) (hxs : TellsAll xs) :
    TellsAll (x :: xs) := by
  intro xs' tail tail' hxs' heq
  cases xs' with
  | nil =>
    simp only [renderAllThen, renderMarks, List.cons_append, List.nil_append] at heq
    exact absurd (List.cons.inj heq).2 (renderThen_ne_close h.cons.1 _ _)
  | cons y ys =>
    simp only [renderAllThen, renderMarks, List.cons_append, List.nil_append] at heq
    obtain ⟨hy, hys⟩ := hxs'.cons
    obtain ⟨hbare, hrest⟩ := hx hy (follows_block h.cons.2 tail) (follows_block hys tail') (List.cons.inj heq).2
    obtain ⟨hbares, htail⟩ := hxs hys hrest
    exact ⟨by rw [bareAll, bareAll, hbare, hbares], htail⟩

section
variable {p : Place} {n : Bytes} {pos : Position} {e : Expr} {x yes no : Stmt} {xs : List Stmt}

theorem tells_print (h : (print p e).Sourced) : Tells (print p e) := by
  intro x' tail tail' hx' _ _ heq
  have hlead := leading_eq h hx' heq
  cases x' with
  | print p' e' =>
    rw [renderThen_print, renderThen_print] at heq
    obtain ⟨hbare, htail⟩ := (e.tells h.print).finished hx'.print (List.cons.inj (List.append_cancel_left heq)).2
    exact ⟨by rw [bare, bare, hbare], htail⟩
  | _ => cases hlead

theorem condition_inj {e' : Expr} {tail tail' : Bytes} (he : e.Sourced) (he' : e'.Sourced)
    (h : e.renderThen (41 :: 32 :: tail) = e'.renderThen (41 :: 32 :: tail')) :
    e.bare = e'.bare ∧ tail = tail' := by
  obtain ⟨hbare, htail⟩ := (e.tells he).closed he' h
  exact ⟨hbare, (List.cons.inj htail).2⟩

theorem tells_while (h : (.while p e x : Stmt).Sourced) (hx : Tells x) : Tells (.while p e x) := by
  intro x' tail tail' hx' hf hf' heq
  have hlead := leading_eq h hx' heq
  cases x' with
  | «while» p' e' y =>
    rw [renderThen_while, renderThen_while] at heq
    obtain ⟨hcond, hrest⟩ := condition_inj h.while.1 hx'.while.1
      (List.cons.inj (List.cons.inj (List.append_cancel_left heq)).2).2
    obtain ⟨hbare, htail⟩ := hx hx'.while.2 hf hf' hrest
    exact ⟨by rw [bare, bare, hcond, hbare], htail⟩
  | _ => cases hlead

theorem tells_expr (h : (expr p e).Sourced) : Tells (expr p e) := by
  intro x' tail tail' hx' _ _ heq
  have hlead := leading_eq h hx' heq
  cases x' with
  | expr p' e' =>
    rw [renderThen_expr, renderThen_expr] at heq
    obtain ⟨hbare, htail⟩ := (e.tells h.expr).finished hx'.expr heq
    exact ⟨by rw [bare, bare, hbare], htail⟩
  | block p' ys =>
    rw [renderThen_expr, renderThen_block] at heq
    exact absurd heq (e.renderThen_ne_brace h.expr _ _)
  | bad => cases hx'.1
  | hole => cases hx'.1
  | _ => cases hlead

theorem tells_block (h : (block p xs).Sourced) (hxs : TellsAll xs) : Tells (block p xs) := by
  intro x' tail tail' hx' _ _ heq
  have hlead := leading_eq h hx' heq
  cases x' with
  | block p' ys =>
    rw [renderThen_block, renderThen_block] at heq
    obtain ⟨hbare, htail⟩ := hxs hx'.block (List.cons.inj heq).2
    exact ⟨by rw [bare, bare, hbare], htail⟩
  | expr p' e' =>
    rw [renderThen_expr, renderThen_block] at heq
    exact absurd heq.symm (e'.renderThen_ne_brace hx'.expr _ _)
  | bad => cases hx'.1
  | hole => cases hx'.1
  | _ => cases hlead

theorem tells_var {init : Option Expr} (h : (var p n pos init).Sourced) : Tells (var p n pos init) := by
  intro x' tail tail' hx' _ _ heq
  have hlead := leading_eq h hx' heq
  cases x' with
  | var p' n' pos' init' =>
    obtain ⟨hn, hinit⟩ := h.var
    obtain ⟨hn', hinit'⟩ := hx'.var
    cases init with
    | none =>
      cases init' with
      | none =>
        rw [renderThen_var_none, renderThen_var_none] at heq
        obtain ⟨rfl, htail⟩ := hn.append_inj hn' (stops_cons (.inr (.inr rfl))).not_word
          (stops_cons (.inr (.inr rfl))).not_word (List.cons.inj (List.append_cancel_left heq)).2
        exact ⟨rfl, (List.cons.inj htail).2⟩
      | some e' =>
        rw [renderThen_var_none, renderThen_var_some] at heq
        obtain ⟨-, htail⟩ := hn.append_inj hn' (stops_cons (.inr (.inr rfl))).not_word
          (stops_cons (.inl rfl)).not_word (List.cons.inj (List.append_cancel_left heq)).2
        exact absurd (List.cons.inj htail).1 (by decide)
    | some e =>
      cases init' with
      | none =>
        rw [renderThen_var_some, renderThen_var_none] at heq
        obtain ⟨-, htail⟩ := hn.append_inj hn' (stops_cons (.inl rfl)).not_word
          (stops_cons (.inr (.inr rfl))).not_word (List.cons.inj (List.append_cancel_left heq)).2
        exact absurd (List.cons.inj htail).1 (by decide)
      | some e' =>
        rw [renderThen_var_some, renderThen_var_some] at heq
        obtain ⟨rfl, hrest⟩ := hn.append_inj hn' (stops_cons (.inl rfl)).not_word
          (stops_cons (.inl rfl)).not_word (List.cons.inj (List.append_cancel_left heq)).2
        obtain ⟨hbare, htail⟩ := (e.tells (hinit e rfl)).finished (hinit' e' rfl) (by simpa using hrest)
        exact ⟨by rw [bare, bare, Option.map_some, Option.map_some, hbare], htail⟩
  | _ => cases hlead

theorem tells_ret {value : Option Expr} (h : (ret p value).Sourced) : Tells (ret p value) := by
  intro x' tail tail' hx' _ _ heq
  have hlead := leading_eq h hx' heq
  cases x' with
  | ret p' value' =>
    have hvalue := h.ret
    have hvalue' := hx'.ret
    cases value with
    | none =>
      cases value' with
      | none =>
        rw [renderThen_ret_none, renderThen_ret_none] at heq
        exact ⟨rfl, (List.cons.inj (List.append_cancel_left heq)).2⟩
      | some e' =>
        rw [renderThen_ret_none, renderThen_ret_some] at heq
        exact absurd (List.cons.inj (List.append_cancel_left heq)).1 (by decide)
    | some e =>
      cases value' with
      | none =>
        rw [renderThen_ret_some, renderThen_ret_none] at heq
        exact absurd (List.cons.inj (List.append_cancel_left heq)).1 (by decide)
      | some e' =>
        rw [renderThen_ret_some, renderThen_ret_some] at heq
        obtain ⟨hbare, htail⟩ := (e.tells (hvalue e rfl)).finished (hvalue' e' rfl)
          (List.cons.inj (List.append_cancel_left heq)).2
        exact ⟨by rw [bare, bare, Option.map_some, Option.map_some, hbare], htail⟩
  | _ => cases hlead

def namesBehind (ns : List Bytes) (tail : Bytes) : Bytes := ns.flatMap (txt ", " ++ ·) ++ 41 :: tail

theorem namesBehind_cons (n : Bytes) (ns : List Bytes) (tail : Bytes) :
    namesBehind (n :: ns) tail = 44 :: 32 :: (n ++ namesBehind ns tail) := by
  simp only [namesBehind, renderMarks, List.flatMap_cons, List.append_assoc, List.cons_append, List.nil_append]

theorem namesBehind_not_word (ns : List Bytes) (tail : Bytes) :
    ∀ b ∈ (namesBehind ns tail).head?, Lexeme.isWordByte b = false := by
  intro b hb
  cases ns with
  | nil =>
    cases hb
    decide
  | cons n ns =>
    rw [namesBehind_cons] at hb
    cases hb
    decide

theorem namesBehind_inj {ns ns' : List Bytes} (hns : ∀ n ∈ ns, IsName n) (hns' : ∀ n ∈ ns', IsName n)
    {tail tail' : Bytes} (h : namesBehind ns tail = namesBehind ns' tail') : ns = ns' ∧ tail = tail' := by
  induction ns generalizing ns' with
  | nil =>
    cases ns' with
    | nil => exact ⟨rfl, (List.cons.inj h).2⟩
    | cons n' ns' =>
      rw [namesBehind_cons] at h
      exact absurd (List.cons.inj h).1 (by decide)
  | cons n ns ih =>
    rw [namesBehind_cons] at h
    cases ns' with
    | nil => exact absurd (List.cons.inj h).1 (by decide)
    | cons n' ns' =>
      rw [namesBehind_cons] at h
      obtain ⟨hn, hrest⟩ := List.forall_mem_cons.mp hns
      obtain ⟨hn', hrest'⟩ := List.forall_mem_cons.mp hns'
      obtain ⟨rfl, hbehind⟩ := hn.append_inj hn' (namesBehind_not_word ns tail) (namesBehind_not_word ns' tail')
        (List.cons.inj (List.cons.inj h).2).2
      obtain ⟨rfl, htail⟩ := ih hrest hrest' hbehind
      exact ⟨rfl, htail⟩

theorem params_inj {ns ns' : List Bytes} (hns : ∀ n ∈ ns, IsName n) (hns' : ∀ n ∈ ns', IsName n)
    {tail tail' : Bytes} (h : Text.join (txt ", ") ns ++ 41 :: tail = Text.join (txt ", ") ns' ++ 41 :: tail') :
    ns = ns' ∧ tail = tail' := by
  cases ns with
  | nil =>
    cases ns' with
    | nil => exact ⟨rfl, (List.cons.inj h).2⟩
    | cons n' ns' =>
      rw [Text.join_cons, List.append_assoc] at h
      exact absurd h.symm ((hns' n' (by simp)).append_ne (by decide))
  | cons n ns =>
    rw [Text.join_cons, List.append_assoc] at h
    obtain ⟨hn, hrest⟩ := List.forall_mem_cons.mp hns
    cases ns' with
    | nil => exact absurd h (hn.append_ne (by decide))
    | cons n' ns' =>
      rw [Text.join_cons, List.append_assoc] at h
      obtain ⟨hn', hrest'⟩ := List.forall_mem_cons.mp hns'
      obtain ⟨rfl, hbehind⟩ :=
        hn.append_inj hn' (namesBehind_not_word ns tail) (namesBehind_not_word ns' tail') h
      obtain ⟨rfl, htail⟩ := namesBehind_inj hrest hrest' hbehind
      exact ⟨rfl, htail⟩

theorem tells_func {ps : List Param} (h : (func p n pos ps xs).Sourced) (hxs : TellsAll xs) :
    Tells (func p n pos ps xs) := by
  intro x' tail tail' hx' _ _ heq
  have hlead := leading_eq h hx' heq
  cases x' with
  | func p' n' pos' ps' ys =>
    obtain ⟨hn, hps, -⟩ := h.func
    obtain ⟨hn', hps', hys⟩ := hx'.func
    rw [renderThen_func, renderThen_func] at heq
    obtain ⟨rfl, hrest⟩ := hn.append_inj hn' (by simp; decide) (by simp; decide)
      (List.cons.inj (List.append_cancel_left heq)).2
    obtain ⟨hnames, hbody⟩ := params_inj (List.forall_mem_map.mpr hps) (List.forall_mem_map.mpr hps')
      (List.cons.inj hrest).2
    obtain ⟨hbare, htail⟩ := hxs hys (List.cons.inj (List.cons.inj hbody).2).2
    have hparams : ps.map Param.bare = ps'.map Param.bare := by
      have := congrArg (List.map fun n => (⟨n, {}⟩ : Param)) hnames
      rwa [List.map_map, List.map_map] at this
    exact ⟨by rw [bare, bare, hparams, hbare], htail⟩
  | _ => cases hlead

theorem tells_ifThen (h : (ifThen p e yes).Sourced) (hyes : Tells yes) : Tells (ifThen p e yes) := by
  intro x' tail tail' hx' hf hf' heq
  have hlead := leading_eq h hx' heq
  rw [renderThen_ifThen] at heq
  cases x' with
  | ifThen p' e' yes' =>
    rw [renderThen_ifThen] at heq
    obtain ⟨hcond, hrest⟩ := condition_inj h.ifThen.1 hx'.ifThen.1
      (List.cons.inj (List.cons.inj (List.append_cancel_left heq)).2).2
    obtain ⟨hbare, htail⟩ := hyes hx'.ifThen.2 (fun _ => hf rfl) (fun _ => hf' rfl) hrest
    exact ⟨by rw [bare, bare, hcond, hbare], htail⟩
  | ifElse p' e' yes' no' =>
    obtain ⟨he', hyes', hopen', -⟩ := hx'.ifElse
    rw [renderThen_ifElse] at heq
    obtain ⟨-, hrest⟩ := condition_inj h.ifThen.1 he'
      (List.cons.inj (List.cons.inj (List.append_cancel_left heq)).2).2
    -- the `else` would belong to this statement
    obtain ⟨-, htail⟩ := hyes hyes' (fun _ => hf rfl) (follows_of_not_endsOpen hopen') hrest
    exact absurd htail (hf rfl _)
  | _ => cases hlead

theorem tells_ifElse (h : (ifElse p e yes no).Sourced) (hyes : Tells yes) (hno : Tells no) :
    Tells (ifElse p e yes no) := by
  intro x' tail tail' hx' hf hf' heq
  have hlead := leading_eq h hx' heq
  obtain ⟨he, hyes₁, hopen, hno₁⟩ := h.ifElse
  rw [renderThen_ifElse] at heq
  cases x' with
  | ifThen p' e' yes' =>
    rw [renderThen_ifThen] at heq
    obtain ⟨-, hrest⟩ := condition_inj he hx'.ifThen.1
      (List.cons.inj (List.cons.inj (List.append_cancel_left heq)).2).2
    obtain ⟨-, htail⟩ := hyes hx'.ifThen.2 (follows_of_not_endsOpen hopen) (fun _ => hf' rfl) hrest
    exact absurd htail.symm (hf' rfl _)
  | ifElse p' e' yes' no' =>
    obtain ⟨he', hyes', hopen', hno'⟩ := hx'.ifElse
    rw [renderThen_ifElse] at heq
    obtain ⟨hcond, hrest⟩ := condition_inj he he'
      (List.cons.inj (List.cons.inj (List.append_cancel_left heq)).2).2
    obtain ⟨hbare, hbehind⟩ :=
      hyes hyes' (follows_of_not_endsOpen hopen) (follows_of_not_endsOpen hopen') hrest
    obtain ⟨hbare', htail⟩ := hno hno' hf hf'
      (List.cons.inj (List.append_cancel_left (List.cons.inj hbehind).2)).2
    exact ⟨by rw [bare, bare, hcond, hbare, hbare'], htail⟩
  | _ => cases hlead

end

mutual

theorem tells : ∀ (x : Stmt), x.Sourced → Tells x
  | .var .., h => tells_var h
  | .print .., h => tells_print h
  | .expr .., h => tells_expr h
  | .block _ xs, h => tells_block h (tellsAll xs h.block)
  | .ifThen _ _ yes, h => tells_ifThen h (yes.tells h.ifThen.2)
  | .ifElse _ _ yes no, h => tells_ifElse h (yes.tells h.ifElse.2.1) (no.tells h.ifElse.2.2.2)
  | .while _ _ x, h => tells_while h (x.tells h.while.2)
  | .ret .., h => tells_ret h
  | .func _ _ _ _ xs, h => tells_func h (tellsAll xs h.func.2.2)
  | .bad .., h => absurd h.1 Bool.false_ne_true
  | .hole, h => absurd h.1 Bool.false_ne_true

theorem tellsAll : ∀ (xs : List Stmt), SourcedAll xs → TellsAll xs
  | [], _ => tellsAll_nil
  | x :: xs, h => tellsAll_cons h (x.tells h.cons.1) (tellsAll xs h.cons.2)

end

end Stmt

/-! ## Programs -/

theorem Expr.renderThen_append (e : Expr) (a b : Bytes) : e.renderThen (a ++ b) = e.renderThen a ++ b := by
  induction e generalizing a with
  | literal | name | hole => simp only [renderThen, List.append_assoc]
  | binary p k left right ihl ihr => simp only [renderThen, ← ihl, ← ihr, List.append_assoc]
  | unary p k e ih | group p e ih | assign p n e ih => simp only [renderThen, ← ih, List.append_assoc]

theorem Expr.renderOptional_append (mark : Bytes) (e? : Option Expr) (a b : Bytes) :
    renderOptional mark e? (a ++ b) = renderOptional mark e? a ++ b := by
  cases e? with
  | none => rfl
  | some e => simp only [renderOptional, renderThen_append, List.append_assoc]

namespace Stmt

mutual

theorem renderThen_append : ∀ (x : Stmt) (a b : Bytes), x.renderThen (a ++ b) = x.renderThen a ++ b
  | .var .., a, b => by
    simp only [renderThen, ← List.append_assoc, Expr.renderOptional_append]
  | .print .., a, b | .expr .., a, b => by
    simp only [renderThen, ← List.append_assoc, Expr.renderThen_append]
  | .block _ xs, a, b => by
    simp only [renderThen, ← List.append_assoc, renderAllThen_append xs]
  | .ifThen _ _ yes, a, b => by
    simp only [renderThen, ← List.append_assoc, yes.renderThen_append, Expr.renderThen_append]
  | .ifElse _ _ yes no, a, b => by
    simp only [renderThen, ← List.append_assoc, yes.renderThen_append, no.renderThen_append, Expr.renderThen_append]
  | .while _ _ x, a, b => by
    simp only [renderThen, ← List.append_assoc, x.renderThen_append, Expr.renderThen_append]
  | .ret .., a, b => by
    simp only [renderThen, ← List.append_assoc, Expr.renderOptional_append]
  | .func _ _ _ _ xs, a, b => by
    simp only [renderThen, ← List.append_assoc, renderAllThen_append xs]
  | .bad .., a, b | .hole, a, b => by
    simp only [renderThen, ← List.append_assoc]

theorem renderAllThen_append : ∀ (xs : List Stmt) (a b : Bytes), renderAllThen xs (a ++ b) = renderAllThen xs a ++ b
  | [], _, _ => rfl
  | x :: xs, a, b => by
    simp only [renderAllThen, renderAllThen_append xs, x.renderThen_append, List.append_assoc]

end

def lines (xs : List Stmt) : Bytes := (xs.map render).flatMap (txt "\n" ++ ·)

theorem lines_cons (x : Stmt) (xs : List Stmt) : lines (x :: xs) = 10 :: x.renderThen (lines xs) := by
  rw [← List.nil_append (lines xs), renderThen_append]
  simp only [lines, renderMarks, List.map_cons, List.flatMap_cons, List.cons_append, List.nil_append, render]

theorem follows_lines (x : Stmt) (xs : List Stmt) : Follows x (lines xs) := by
  refine follows_of_head ?_
  cases xs with
  | nil => simp [lines]
  | cons y ys =>
    rw [lines_cons]
    simp

theorem lines_inj {xs xs' : List Stmt} (hxs : SourcedAll xs) (hxs' : SourcedAll xs') (h : lines xs = lines xs') :
    bareAll xs = bareAll xs' := by
  induction xs generalizing xs' with
  | nil =>
    cases xs' with
    | nil => rfl
    | cons y ys =>
      rw [lines_cons] at h
      cases h
  | cons x xs ih =>
    rw [lines_cons] at h
    cases xs' with
    | nil => cases h
    | cons y ys =>
      rw [lines_cons] at h
      obtain ⟨hbare, hrest⟩ := x.tells hxs.cons.1 hxs'.cons.1 (follows_lines x xs) (follows_lines y ys)
        (List.cons.inj h).2
      rw [bareAll, bareAll, hbare, ih hxs.cons.2 hxs'.cons.2 hrest]

end Stmt

namespace Program

theorem render_eq {p : Program} {x : Stmt} {xs : List Stmt} (h : p.body = x :: xs) :
    p.render = x.renderThen (Stmt.lines xs) := by
  rw [render, h, List.map_cons, Text.join_cons, ← List.nil_append (Stmt.lines xs), Stmt.renderThen_append]
  rfl

/-- The text of a program whose leaves are those of a source tells its statements. -/
theorem render_inj {p p' : Program} (h : Stmt.SourcedAll p.body) (h' : Stmt.SourcedAll p'.body)
    (heq : p.render = p'.render) : p.bare = p'.bare := by
  cases hbody : p.body with
  | nil =>
    cases hbody' : p'.body with
    | nil => rw [bare, bare, hbody, hbody']
    | cons y ys =>
      rw [hbody'] at h'
      obtain ⟨b, text, htext, -⟩ := Stmt.renderThen_head h'.cons.1 (Stmt.lines ys)
      rw [render, hbody, render_eq hbody', htext] at heq
      cases heq
  | cons x xs =>
    rw [hbody] at h
    rw [render_eq hbody] at heq
    cases hbody' : p'.body with
    | nil =>
      obtain ⟨b, text, htext, -⟩ := Stmt.renderThen_head h.cons.1 (Stmt.lines xs)
      rw [htext, render, hbody'] at heq
      cases heq
    | cons y ys =>
      rw [hbody'] at h'
      rw [render_eq hbody'] at heq
      obtain ⟨hbare, hrest⟩ := x.tells h.cons.1 h'.cons.1 (Stmt.follows_lines x xs) (Stmt.follows_lines y ys) heq
      have hbares := Stmt.lines_inj h.cons.2 h'.cons.2 hrest
      rw [bare, bare, hbody, hbody', Stmt.bareAll, Stmt.bareAll, hbare, hbares]

/-- The text of a program tells its tree: two sources that are read without errors and whose programs have the
same text hold the same statements, up to where they stand. -/
theorem render_unambiguous {source source' : Bytes} (h : (parseSource source).errors = [])
    (h' : (parseSource source').errors = [])
    (heq : (parseSource source).program.render = (parseSource source').program.render) :
    (parseSource source).program.bare = (parseSource source').program.bare :=
  render_inj (parseSource_sourced h) (parseSource_sourced h') heq

/-- A group and a variable of that name, in two layouts. -/
theorem render_unambiguous_group :
    (parseSource (txt "(group + 1);if (a) print 2;")).program.bare =
      (parseSource (txt "( group+1 ) ;\nif(a)print 2;")).program.bare :=
  render_unambiguous (by decide +kernel) (by decide +kernel) (by decide +kernel)

end Program

end RegCode
