import RegCode.Proofs.Lexical
import RegCode.Proofs.Nesting

/-!
# Positions of tokens

The position of a token tells where it stands: its line counts the line feeds in front of it, its column the bytes
behind the last of these. A cursor knows this of every place with text behind it, which is `Stands`. At the end of
the text it does not: a line feed there begins no line, and every step beyond the end counts a column. There is one
such step, behind a string that is cut off between a backslash and the byte it stands in front of.
-/

namespace RegCode

/-- The number of bytes up to the last line feed, this one included; zero if there is none. -/
def lineStart (front : Bytes) : Nat :=
  match front.reverse.idxOf? Text.newline with
  | none => 0
  | some i => front.length - i

namespace Position

def behind (front : Bytes) : Position :=
  ⟨front.length, 1 + front.count Text.newline, front.length - lineStart front + 1⟩

def shifted (p : Position) (columns : Nat) : Position := { p with column := p.column + columns }

def next (p : Position) : Position := ⟨p.offset + 1, p.line, p.column + 1⟩

/-- The place that is given to the end of a text: a line feed at the end begins no line. -/
def ending (text : Bytes) : Position :=
  if text.getLast? = some Text.newline then (behind text.dropLast).next else behind text

end Position

/-! ## Steps -/

theorem lineStart_concat (front : Bytes) (b : UInt8) :
    lineStart (front ++ [b]) = if b = Text.newline then front.length + 1 else lineStart front := by
  unfold lineStart
  rw [List.reverse_append, List.reverse_singleton, List.singleton_append, List.idxOf?_cons]
  by_cases hb : b = Text.newline
  · simp [hb]
  · rw [if_neg hb, if_neg (by simpa using hb)]
    cases front.reverse.idxOf? Text.newline with
    | none => rfl
    | some i => simp

namespace Position

theorem behind_concat (front : Bytes) (b : UInt8) : behind (front ++ [b]) = Cursor.past (behind front) b false := by
  unfold behind Cursor.past
  rw [lineStart_concat]
  by_cases hb : b = Text.newline
  · simp [hb]
    omega
  · simp [hb]
    omega

theorem ending_concat (front : Bytes) (b : UInt8) : ending (front ++ [b]) = Cursor.past (behind front) b true := by
  unfold ending
  rw [List.getLast?_concat, List.dropLast_concat, behind_concat]
  by_cases hb : b = Text.newline
  · simp [hb, Cursor.past, next]
  · simp [hb, Cursor.past]

end Position

namespace Cursor

/-- The cursor is in a text, with something behind it, or the given number of steps beyond the end. -/
inductive Stands (text : Bytes) : Nat → Cursor → Prop where
  | inside (front : Bytes) (b : UInt8) (rest : Bytes) : text = front ++ b :: rest →
      Stands text 0 ⟨b :: rest, .behind front⟩
  | ended (beyond : Nat) : Stands text beyond ⟨[], (Position.ending text).shifted beyond⟩

variable {text : Bytes} {n : Nat} {c : Cursor}

theorem stands_start (text : Bytes) : (start text).Stands text 0 := by
  cases text with
  | nil => exact .ended 0
  | cons b rest => exact .inside [] b rest rfl

theorem Stands.step (h : c.Stands text n) : c.step.Stands text (n + (1 - c.rest.length)) := by
  cases h with
  | inside front b rest htext =>
    cases rest with
    | nil =>
      subst htext
      have h0 : (Position.ending (front ++ [b])).shifted 0 = past (.behind front) b true := by
        rw [← Position.ending_concat]
        simp [Position.shifted]
      rw [Cursor.step, List.isEmpty_nil, ← h0]
      exact .ended 0
    | cons x rest =>
      rw [Cursor.step, List.isEmpty_cons, ← Position.behind_concat]
      have hzero : 0 + (1 - (b :: x :: rest).length) = 0 := by simp
      rw [hzero]
      exact .inside (front ++ [b]) x rest (by simpa using htext)
  | ended =>
    have hnext : ({ (Position.ending text).shifted n with
        column := ((Position.ending text).shifted n).column + 1 } : Position) =
          (Position.ending text).shifted (n + 1) := by
      simp [Position.shifted]
      omega
    rw [Cursor.step, hnext]
    exact .ended (n + 1)

theorem Stands.advance (m : Nat) (h : c.Stands text n) : (c.advance m).Stands text (n + (m - c.rest.length)) := by
  induction m generalizing c n with
  | zero =>
    rw [Nat.zero_sub]
    exact h
  | succ m ih =>
    have hstep := ih h.step
    rw [rest_step, List.length_drop] at hstep
    have hn : n + (1 - c.rest.length) + (m - (c.rest.length - 1)) = n + (m + 1 - c.rest.length) := by omega
    rwa [hn] at hstep

end Cursor

/-! ## Widths -/

namespace Lexeme

theorem gapStep_le (text : Bytes) : gapStep text ≤ text.length := by
  fun_cases gapStep text with
  | case1 rest =>
    have := (List.takeWhile_sublist inLineComment (l := rest)).length_le
    simp only [List.length_cons]
    omega
  | case2 rest =>
    rcases blockCommentRest_cases 2 rest with ⟨c, tail, rfl, -, hn⟩ | ⟨-, hn⟩
    · simp only [hn, List.length_cons, List.length_append]
      omega
    · simp only [hn, List.length_cons]
      omega
  | case3 => exact (List.takeWhile_sublist isBlank).length_le

theorem gapFrom_eq (n : Nat) (text : Bytes) :
    ∃ k ≤ text.length, gapFrom n text = (n + k, text.drop k) ∧ gapStep (text.drop k) = 0 := by
  fun_induction gapFrom n text with
  | case1 n text h => exact ⟨0, Nat.zero_le _, rfl, h⟩
  | case2 n text h ih =>
    obtain ⟨k, hk, heq, hstop⟩ := ih
    have hle := gapStep_le text
    rw [List.length_drop] at hk
    rw [List.drop_drop] at heq hstop
    exact ⟨gapStep text + k, by omega, by rw [heq, Nat.add_assoc], hstop⟩

theorem gap_le (text : Bytes) : gap text ≤ text.length ∧ gapStep (text.drop (gap text)) = 0 := by
  obtain ⟨k, hk, heq, hstop⟩ := gapFrom_eq 0 text
  have hgap : gap text = k := by rw [gap, heq, Nat.zero_add]
  rw [hgap]
  exact ⟨hk, hstop⟩

/-- A string that the end cuts off behind a backslash. -/
def CutOff (text : Bytes) : Prop := ∃ w s, Content w s ∧ text = 34 :: (w ++ [92])

theorem stringRest_escape_missing {w s : Bytes} (h : Content w s) (acc : Bytes) (width : Nat) :
    (stringRest acc width (w ++ [92])).width = width + w.length + 2 := by
  induction h generalizing acc width with
  | nil => rfl
  | plain h34 h92 _ ih =>
    rw [List.cons_append, stringRest_plain h34 h92, ih, List.length_cons]
    omega
  | escape _ _ ih =>
    rw [List.cons_append, List.cons_append, stringRest, ih, List.length_cons, List.length_cons]
    omega

theorem stringRest_width_le {text : Bytes} (h : ∀ w s, Content w s → text ≠ w ++ [92]) (acc : Bytes) (width : Nat) :
    (stringRest acc width text).width ≤ width + text.length := by
  fun_induction stringRest acc width text with
  | case1 acc width => exact Nat.le_refl _
  | case2 acc width after =>
    simp only [List.length_cons]
    omega
  | case3 acc width => exact absurd rfl (h [] [] .nil)
  | case4 acc width b rest ih =>
    have := ih fun w s hw heq => h (92 :: b :: w) _ (.escape (escape_unescape b) hw) (by rw [heq]; rfl)
    simp only [List.length_cons]
    omega
  | case5 acc width b rest h34 hlast hmore ih =>
    have h92 : b ≠ 92 := by
      rintro rfl
      cases rest with
      | nil => exact hlast rfl rfl
      | cons x rest => exact hmore x rest rfl rfl
    have := ih fun w s hw heq => h (b :: w) (b :: s) (.plain h34 h92 hw) (by rw [heq]; rfl)
    simp only [List.length_cons]
    omega

theorem width_number_le (text : Bytes) : (number text).width ≤ text.length := by
  have hlen := congrArg List.length (List.takeWhile_append_dropWhile (p := Text.isDigit) (l := text))
  rw [List.length_append] at hlen
  unfold number
  split
  · rename_i d rest hdrop
    rw [hdrop, List.length_cons] at hlen
    have := (List.takeWhile_sublist Text.isDigit (l := d :: rest)).length_le
    dsimp only
    split
    · dsimp only
      omega
    · dsimp only
      omega
  · dsimp only
    omega

/-- Only a string that is cut off behind a backslash is wider than the text, by one byte. -/
theorem width_read (b : UInt8) (rest : Bytes) :
    (CutOff (b :: rest) → (read b rest).width = rest.length + 2) ∧
    (¬ CutOff (b :: rest) → (read b rest).width ≤ rest.length + 1) := by
  constructor
  · rintro ⟨w, s, hw, heq⟩
    cases heq
    have hread : read 34 (w ++ [92]) = stringRest [] 1 (w ++ [92]) := rfl
    rw [hread, stringRest_escape_missing hw, List.length_append, List.length_singleton]
    omega
  · intro h
    fun_cases read b rest with
    | case1 => simp
    | case2 => simp
    | case3 => simp
    | case4 =>
      rename_i h34
      cases h34
      have hwhole : ∀ w s, Content w s → rest ≠ w ++ [92] := fun w s hw heq => h ⟨w, s, hw, by rw [heq]⟩
      have := stringRest_width_le hwhole [] 1
      omega
    | case5 => exact (List.takeWhile_sublist isWordByte).length_le
    | case6 => exact width_number_le _
    | case7 =>
      unfold unexpected
      cases hd : Utf8.decode (b :: rest) with
      | none => simp
      | some p =>
        obtain ⟨⟨after, hafter⟩, hl⟩ := Utf8.decode_eq_some_iff.mp hd
        have := congrArg List.length hafter
        simp only [List.length_append, List.length_cons] at this
        dsimp only
        omega

end Lexeme

/-! ## Tokens -/

/-- The token is what is read of the text at a place where neither a blank nor a comment is. -/
def Token.ReadIn (text : Bytes) (t : Token) : Prop :=
  ∃ front b rest, text = front ++ b :: rest ∧ Lexeme.gapStep (b :: rest) = 0 ∧
    t = ⟨(Lexeme.read b rest).kind, (Lexeme.read b rest).literal, .behind front⟩

def Token.onward (text : Bytes) (t : Token) : Bytes := text.drop t.pos.offset.toNat

theorem Token.onward_behind {text front rest : Bytes} (h : text = front ++ rest) (k : Kind) (literal : Bytes) :
    (Token.mk k literal (.behind front)).onward text = rest := by
  simp [onward, Position.behind, h]

namespace Cursor

variable {text : Bytes} {n : Nat} {c : Cursor}

theorem Stands.skipGap (h : c.Stands text n) : c.skipGap.Stands text n := by
  have hgap := h.advance (Lexeme.gap c.rest)
  rwa [Nat.sub_eq_zero_of_le (Lexeme.gap_le c.rest).1] at hgap

theorem Stands.end_pos (h : c.Stands text n) (hk : c.nextToken.1.kind = .eof) :
    c.nextToken.1.pos = (Position.ending text).shifted n := by
  have hgap := h.skipGap
  unfold nextToken at hk ⊢
  revert hk hgap
  generalize c.skipGap = d
  intro hk hgap
  cases hgap with
  | inside front b rest => exact absurd hk (Lexeme.read_kind_ne_eof b rest)
  | ended => rfl

theorem Stands.nextToken (h : c.Stands text n) (hk : c.nextToken.1.kind ≠ .eof) :
    n = 0 ∧ c.nextToken.1.ReadIn text ∧
      (Lexeme.CutOff (c.nextToken.1.onward text) → c.nextToken.2.Stands text 1) ∧
      (¬ Lexeme.CutOff (c.nextToken.1.onward text) → c.nextToken.2.Stands text 0) := by
  have hgap := h.skipGap
  have hstop : Lexeme.gapStep c.skipGap.rest = 0 := by
    rw [Cursor.skipGap, rest_advance]
    exact (Lexeme.gap_le c.rest).2
  unfold Cursor.nextToken at hk ⊢
  revert hk hgap hstop
  generalize c.skipGap = d
  intro hk hgap hstop
  cases hgap with
  | ended => exact absurd rfl hk
  | inside front b rest htext =>
    have hadvance := (Stands.inside front b rest htext).advance (Lexeme.read b rest).width
    rw [Nat.zero_add, List.length_cons] at hadvance
    obtain ⟨hcut, hwhole⟩ := Lexeme.width_read b rest
    dsimp only
    rw [Token.onward_behind htext]
    refine ⟨rfl, ⟨front, b, rest, htext, hstop, rfl⟩, fun h => ?_, fun h => ?_⟩
    · have hone : (Lexeme.read b rest).width - (rest.length + 1) = 1 := by
        rw [hcut h]
        omega
      rwa [hone] at hadvance
    · rwa [Nat.sub_eq_zero_of_le (hwhole h)] at hadvance

theorem tokensOnto_stands (acc : List Token) (c : Cursor) : ∀ n, c.Stands text n →
    ∃ front eof, (c.tokensOnto acc).1 = acc.reverse ++ (front ++ [eof]) ∧ (∀ t ∈ front, t.ReadIn text) ∧
      eof.kind = .eof ∧
      ((∃ t ∈ front, Lexeme.CutOff (t.onward text)) → eof.pos = (Position.ending text).shifted 1) ∧
      ((∀ t ∈ front, ¬ Lexeme.CutOff (t.onward text)) → eof.pos = (Position.ending text).shifted n) := by
  fun_induction tokensOnto acc c with
  | case1 acc c next hk =>
    intro n h
    exact ⟨[], next.1, by simp, by simp, hk, by simp, fun _ => h.end_pos hk⟩
  | case2 acc c next hk ih =>
    intro n h
    obtain ⟨rfl, hread, hcut, hwhole⟩ := h.nextToken hk
    by_cases hc : Lexeme.CutOff (next.1.onward text)
    · obtain ⟨front, eof, heq, hall, hkind, hone, hend⟩ := ih 1 (hcut hc)
      refine ⟨next.1 :: front, eof, by simp [heq], ?_, hkind, fun _ => ?_, fun hno => ?_⟩
      · exact List.forall_mem_cons.mpr ⟨hread, hall⟩
      · by_cases hmore : ∃ t ∈ front, Lexeme.CutOff (t.onward text)
        · exact hone hmore
        · exact hend fun t ht hct => hmore ⟨t, ht, hct⟩
      · exact absurd hc (hno _ (.head _))
    · obtain ⟨front, eof, heq, hall, hkind, hone, hend⟩ := ih 0 (hwhole hc)
      refine ⟨next.1 :: front, eof, by simp [heq], ?_, hkind, fun hex => ?_, fun hno => ?_⟩
      · exact List.forall_mem_cons.mpr ⟨hread, hall⟩
      · exact hone (by simpa [hc] using hex)
      · exact hend fun t ht => hno t (.tail _ ht)

theorem offset_nextToken (c : Cursor) : c.pos.offset ≤ c.nextToken.1.pos.offset ∧
    (c.nextToken.1.kind ≠ .eof → c.nextToken.1.pos.offset < c.nextToken.2.pos.offset) := by
  have hgap : c.skipGap.stop = c.stop := stop_advance ..
  have hle : c.skipGap.rest.length ≤ c.rest.length := by simp [skipGap]
  have hstop := stop_nextToken c
  unfold nextToken at hstop ⊢
  unfold stop at hgap hstop
  cases hr : c.skipGap.rest with
  | nil =>
    rw [hr] at hgap hle
    refine ⟨?_, fun hk => absurd (by simp [hr]) hk⟩
    simp only [hr]
    simp only [List.length_nil] at hgap
    omega
  | cons b rest =>
    have hwidth := Lexeme.width_read_pos b rest
    simp only [hr, rest_advance, List.length_drop, List.length_cons] at hgap hle hstop ⊢
    omega

theorem tokensOnto_increasing (acc : List Token) (c : Cursor) :
    ∃ tokens, (c.tokensOnto acc).1 = acc.reverse ++ tokens ∧ (∀ t ∈ tokens, c.pos.offset ≤ t.pos.offset) ∧
      Increasing tokens := by
  fun_induction tokensOnto acc c with
  | case1 acc c next hk =>
    exact ⟨[next.1], by simp, by simpa using c.offset_nextToken.1, List.pairwise_singleton ..⟩
  | case2 acc c next hk ih =>
    obtain ⟨tokens, heq, hall, hinc⟩ := ih
    obtain ⟨hle, hlt⟩ := c.offset_nextToken
    refine ⟨next.1 :: tokens, by simp [heq], ?_, ?_⟩
    · rw [List.forall_mem_cons]
      exact ⟨hle, fun t ht => Int.le_trans hle (Int.le_trans (Int.le_of_lt (hlt hk)) (hall t ht))⟩
    · exact List.pairwise_cons.mpr ⟨fun t ht => Int.lt_of_lt_of_le (hlt hk) (hall t ht), hinc⟩

end Cursor

theorem tokenize_increasing (source : Bytes) : Increasing (tokenize source) := by
  obtain ⟨tokens, heq, -, hinc⟩ := Cursor.tokensOnto_increasing [] (.ofSource source)
  have htokens : tokenize source = tokens := heq
  rwa [htokens]

theorem tokenize_readIn (source : Bytes) : let text := Text.Canonical.compose source
    ∃ front eof, tokenize source = front ++ [eof] ∧ (∀ t ∈ front, t.ReadIn text) ∧ eof.kind = .eof ∧
      ((∃ t ∈ front, Lexeme.CutOff (t.onward text)) → eof.pos = (Position.ending text).shifted 1) ∧
      ((∀ t ∈ front, ¬ Lexeme.CutOff (t.onward text)) → eof.pos = .ending text) := by
  intro text
  obtain ⟨front, eof, heq, hall, hk, hcut, hwhole⟩ := Cursor.tokensOnto_stands [] _ 0 (Cursor.stands_start text)
  refine ⟨front, eof, heq, hall, hk, hcut, fun h => ?_⟩
  rw [hwhole h]
  simp [Position.shifted]

theorem Token.ReadIn.pos_eq {text : Bytes} {t : Token} (h : t.ReadIn text) :
    t.pos = .behind (text.take t.pos.offset.toNat) := by
  obtain ⟨front, b, rest, rfl, -, rfl⟩ := h
  simp [Position.behind]

theorem Token.ReadIn.kind_ne {text : Bytes} {t : Token} (h : t.ReadIn text) : t.kind ≠ .eof := by
  obtain ⟨front, b, rest, -, -, rfl⟩ := h
  exact Lexeme.read_kind_ne_eof b rest

theorem Token.ReadIn.offset_lt {text : Bytes} {t : Token} (h : t.ReadIn text) : t.pos.offset < text.length := by
  obtain ⟨front, b, rest, rfl, -, rfl⟩ := h
  simp only [Position.behind, List.length_append, List.length_cons]
  omega

/-- Every token but the end has the place behind the text in front of it: its line is one more than the line feeds
there, its column one more than the bytes behind the last of them. The offsets go up, also to the end. -/
theorem token_positions (source : Bytes) :
    (∀ t ∈ tokenize source, t.kind ≠ .eof →
      t.pos = .behind ((Text.Canonical.compose source).take t.pos.offset.toNat)) ∧
    Increasing (tokenize source) := by
  refine ⟨fun t ht hk => ?_, tokenize_increasing source⟩
  obtain ⟨front, eof, heq, hall, heof, -⟩ := tokenize_readIn source
  rw [heq, List.mem_append, List.mem_singleton] at ht
  rcases ht with ht | rfl
  · exact (hall t ht).pos_eq
  · exact absurd heof hk

/-- A word behind a string and a comment, each of which goes over two lines. -/
def spreadText : Bytes := txt "\"a\nb\" /*\n*/ x"

theorem spreadText_positions : (⟨.ident, txt "x", ⟨12, 3, 4⟩⟩ : Token) ∈ tokenize spreadText ∧
    (⟨12, 3, 4⟩ : Position) = .behind ((Text.Canonical.compose spreadText).take 12) ∧
    Increasing (tokenize spreadText) := by
  have hmem : (⟨.ident, txt "x", ⟨12, 3, 4⟩⟩ : Token) ∈ tokenize spreadText := by decide +kernel
  obtain ⟨hpos, hinc⟩ := token_positions spreadText
  exact ⟨hmem, hpos _ hmem Kind.noConfusion, hinc⟩

/-! ## The end -/

def EndsInEscape (source : Bytes) : Prop :=
  ∃ t ∈ tokenize source, Lexeme.CutOff (t.onward (Text.Canonical.compose source))

theorem Lexeme.CutOff.getLast? {text : Bytes} {k : Nat} (h : CutOff (text.drop k)) : text.getLast? = some 92 := by
  obtain ⟨w, s, -, heq⟩ := h
  rw [← List.take_append_drop k text, heq, ← List.cons_append, ← List.append_assoc]
  exact List.getLast?_concat

namespace Position

theorem ending_of_newline {text : Bytes} (h : text.getLast? = some Text.newline) :
    ending text = (behind text.dropLast).next ∧ ending text ≠ behind text := by
  obtain ⟨front, rfl⟩ := List.getLast?_eq_some_iff.mp h
  refine ⟨if_pos h, fun heq => ?_⟩
  rw [ending_concat, behind_concat] at heq
  -- the line feed counts as a line in front of more text only
  have hline := congrArg Position.line heq
  simp [Cursor.past] at hline

theorem ending_of_no_newline {text : Bytes} (h : text.getLast? ≠ some Text.newline) : ending text = behind text :=
  if_neg h

theorem shifted_ne (p : Position) : p.shifted 1 ≠ p := by
  intro h
  have hcolumn := congrArg Position.column h
  simp [shifted] at hcolumn

end Position

/-- The token that marks the end is at the length of the text. It has the place behind the text unless this ends in
a line feed, which then counts as one more column, or in a string behind a backslash, which counts one column too
many. -/
theorem end_position (source : Bytes) : let text := Text.Canonical.compose source
    ∃ (front : List Token) (eof : Token), tokenize source = front ++ [eof] ∧ eof.kind = .eof ∧
      eof.pos.offset = text.length ∧
      (text.getLast? = some Text.newline → eof.pos = (Position.behind text.dropLast).next) ∧
      (EndsInEscape source → eof.pos = (Position.behind text).shifted 1) ∧
      (eof.pos = .behind text ↔ text.getLast? ≠ some Text.newline ∧ ¬ EndsInEscape source) := by
  intro text
  obtain ⟨front, eof, heq, -, hk, hcut, hwhole⟩ := tokenize_readIn source
  have hoffset : eof.pos.offset = text.length := (tokenize_stop heq).2
  have hescape : EndsInEscape source ↔ ∃ t ∈ front, Lexeme.CutOff (t.onward text) := by
    -- nothing stands behind the end
    have hend : ¬ Lexeme.CutOff (eof.onward text) := by
      rintro ⟨w, s, -, h⟩
      simp [Token.onward, hoffset] at h
    simp only [EndsInEscape, heq, List.mem_append, List.mem_singleton]
    constructor
    · rintro ⟨t, ht | rfl, hc⟩
      · exact ⟨t, ht, hc⟩
      · exact absurd hc hend
    · rintro ⟨t, ht, hc⟩
      exact ⟨t, .inl ht, hc⟩
  have hno (h : ¬ EndsInEscape source) : eof.pos = .ending text :=
    hwhole fun t ht hc => h (hescape.mpr ⟨t, ht, hc⟩)
  have hlast (h : EndsInEscape source) : text.getLast? ≠ some Text.newline := by
    obtain ⟨t, -, hc⟩ := h
    rw [Lexeme.CutOff.getLast? hc]
    decide
  have hyes (h : EndsInEscape source) : eof.pos = (Position.behind text).shifted 1 := by
    rw [hcut (hescape.mp h), Position.ending_of_no_newline (hlast h)]
  refine ⟨front, eof, heq, hk, hoffset, fun hn => ?_, hyes, ?_⟩
  · rw [hno fun h => hlast h hn, (Position.ending_of_newline hn).1]
  · by_cases h : EndsInEscape source
    · simp [h, hyes h, Position.shifted_ne]
    · rw [hno h]
      by_cases hn : text.getLast? = some Text.newline
      · simp [hn, (Position.ending_of_newline hn).2]
      · simp [h, hn, Position.ending_of_no_newline hn]

def loneEscape : Bytes := [34, 92]

theorem open_ends_misplaced :
    (∃ eof ∈ tokenize [Text.newline], eof.kind = .eof ∧ eof.pos = ⟨1, 1, 2⟩ ∧
      eof.pos ≠ .behind [Text.newline] ∧ Position.behind [Text.newline] = ⟨1, 2, 1⟩) ∧
    (EndsInEscape loneEscape ∧ ∃ eof ∈ tokenize loneEscape, eof.kind = .eof ∧ eof.pos = ⟨2, 1, 4⟩ ∧
      eof.pos ≠ .behind loneEscape ∧ Position.behind loneEscape = ⟨2, 1, 3⟩) := by
  constructor
  · obtain ⟨front, eof, heq, hk, -, hnewline, -, hright⟩ := end_position [Text.newline]
    refine ⟨eof, by simp [heq], hk, hnewline (by decide), fun h => ?_, by decide⟩
    exact (hright.mp h).1 (by decide)
  · have hescape : EndsInEscape loneEscape := by
      have hmem : Token.mk .illegal (txt "unterminated string") ⟨0, 1, 1⟩ ∈ tokenize loneEscape := by decide +kernel
      exact ⟨_, hmem, [], [], .nil, by decide⟩
    obtain ⟨front, eof, heq, hk, -, -, hcut, hright⟩ := end_position loneEscape
    refine ⟨hescape, eof, by simp [heq], hk, hcut hescape, fun h => ?_, by decide⟩
    exact (hright.mp h).2 hescape

end RegCode
