import RegCode.Proofs.Region

/-!
# Line comments

A line comment hides its line up to the line feed, whatever it holds, with one exception: a zero byte ends it, and
is read as a token itself. The text in front of the comment, if it ends in code and with a blank, gives the same
tokens whatever follows it, and what comes behind the line feed does not depend on offset and column. So the comment
alone decides.
-/

namespace RegCode

/-- What a token is apart from its offset and its column. -/
def Token.face (t : Token) : Kind × Bytes × Int := (t.kind, t.literal, t.pos.line)

/-! ## Cursors -/

namespace Cursor

open Lexeme

theorem advance_add (m n : Nat) (c : Cursor) : c.advance (m + n) = (c.advance m).advance n := by
  induction m generalizing c with
  | zero => rw [Nat.zero_add, advance]
  | succ m ih => rw [Nat.succ_add, advance, advance, ih]

theorem advance_behind (front w : Bytes) {x : Bytes} (hx : x ≠ []) :
    (⟨w ++ x, .behind front⟩ : Cursor).advance w.length = ⟨x, .behind (front ++ w)⟩ := by
  induction w generalizing front with
  | nil => simp [advance]
  | cons b w ih =>
    have hlast : (w ++ x).isEmpty = false := by simp [hx]
    rw [List.length_cons, advance, List.cons_append, step, hlast, ← Position.behind_concat, ih]
    simp

theorem nextToken_eq_of_skipGap {c d : Cursor} (h : c.skipGap = d.skipGap) : c.nextToken = d.nextToken := by
  simp only [nextToken, h]

theorem nextToken_skipped (front : Bytes) {w x : Bytes} (h : gap (w ++ x) = w.length + gap x) (hx : x ≠ []) :
    (⟨w ++ x, .behind front⟩ : Cursor).nextToken = (⟨x, .behind (front ++ w)⟩ : Cursor).nextToken := by
  apply nextToken_eq_of_skipGap
  unfold skipGap
  dsimp only
  rw [h, advance_add, advance_behind front w hx]

theorem nextToken_read (front : Bytes) {b : UInt8} {rest : Bytes} (h : gapStep (b :: rest) = 0) :
    (⟨b :: rest, .behind front⟩ : Cursor).nextToken =
      (⟨(read b rest).kind, (read b rest).literal, .behind front⟩,
        (⟨b :: rest, .behind front⟩ : Cursor).advance (read b rest).width) := by
  have hgap : gap (b :: rest) = 0 := by rw [gap, gapFrom, if_pos h]
  have hskip : (⟨b :: rest, .behind front⟩ : Cursor).skipGap = ⟨b :: rest, .behind front⟩ := by
    rw [skipGap, hgap, advance]
  simp only [nextToken, hskip]

theorem tokensOnto_eq_of_nextToken {c d : Cursor} (h : c.nextToken = d.nextToken) (acc : List Token) :
    c.tokensOnto acc = d.tokensOnto acc := by
  rw [tokensOnto.eq_def acc c, tokensOnto.eq_def acc d, h]

/-- A text that ends between tokens is read to its end, and the tokens of it do not depend on what follows. -/
theorem tokensOnto_between {a : Bytes} (h : Between a) (front : Bytes) :
    ∃ ts, ∀ x acc, x ≠ [] → (⟨a ++ x, .behind front⟩ : Cursor).tokensOnto acc =
      (⟨x, .behind (front ++ a)⟩ : Cursor).tokensOnto (ts ++ acc) := by
  -- by the length of the text, from which what it begins with is taken off
  induction hn : a.length using Nat.strong_induction_on generalizing a front with
  | _ n ih =>
  cases a with
  | nil => exact ⟨[], fun x acc hx => by simp⟩
  | cons b rest =>
    obtain ⟨w, a, htext, hw, ha, hcases⟩ := h.cases
    have hlen := congrArg List.length htext
    have hpos := List.length_pos_of_ne_nil hw
    rw [List.length_append, hn] at hlen
    obtain ⟨ts, hts⟩ := ih a.length (by omega) ha (front ++ w) rfl
    rcases hcases with hskip | ⟨hwidth, hread⟩
    · refine ⟨ts, fun x acc hx => ?_⟩
      rw [htext, List.append_assoc, tokensOnto_eq_of_nextToken
        (nextToken_skipped front (hskip x) (List.append_ne_nil_of_right_ne_nil a hx)), hts x acc hx,
        List.append_assoc]
    · refine ⟨ts ++ [⟨(read b rest).kind, (read b rest).literal, .behind front⟩], fun x acc hx => ?_⟩
      obtain ⟨hstep, heq⟩ := hread x
      have hne := read_kind_ne_eof b rest
      have hnext := nextToken_read front hstep
      have hend : (⟨b :: rest ++ x, .behind front⟩ : Cursor).advance (read b rest).width =
          ⟨a ++ x, .behind (front ++ w)⟩ := by
        rw [htext, List.append_assoc, hwidth, advance_behind front w (List.append_ne_nil_of_right_ne_nil a hx)]
      rw [heq] at hnext
      rw [tokensOnto, List.cons_append, hnext, if_neg hne, ← List.cons_append, hend, hts x _ hx, htext]
      simp

theorem tokensOnto_append (acc more : List Token) (c : Cursor) :
    (c.tokensOnto (acc ++ more)).1 = more.reverse ++ (c.tokensOnto acc).1 := by
  fun_induction tokensOnto acc c with
  | case1 acc c next h =>
    rw [tokensOnto, if_pos h]
    simp [next]
  | case2 acc c next h ih =>
    rw [tokensOnto, if_neg h]
    exact ih

theorem head?_tokensOnto (c : Cursor) : (c.tokensOnto []).1.head? = some c.nextToken.1 := by
  rw [tokensOnto]
  split
  · rfl
  · rw [← List.nil_append [c.nextToken.1], tokensOnto_append]
    rfl

/-! ## Lines -/

structure Level (c d : Cursor) : Prop where
  rest : c.rest = d.rest
  line : c.pos.line = d.pos.line

theorem Level.advance {c d : Cursor} (h : Level c d) (n : Nat) : Level (c.advance n) (d.advance n) := by
  induction n generalizing c d with
  | zero => exact h
  | succ n ih =>
    refine ih ?_
    obtain ⟨rest, p⟩ := c
    obtain ⟨rest', q⟩ := d
    obtain ⟨hrest, hline⟩ := h
    dsimp only at hrest hline
    subst hrest
    cases rest with
    | nil => exact ⟨rfl, hline⟩
    | cons b rest =>
      refine ⟨rfl, ?_⟩
      simp only [step, past]
      split <;> simp [hline]

theorem Level.nextToken {c d : Cursor} (h : Level c d) :
    c.nextToken.1.face = d.nextToken.1.face ∧ Level c.nextToken.2 d.nextToken.2 := by
  have hgap : Level c.skipGap d.skipGap := by
    rw [skipGap, skipGap, h.rest]
    exact h.advance _
  unfold Cursor.nextToken
  dsimp only
  rw [hgap.rest]
  split
  · exact ⟨by simp [Token.face, hgap.line], hgap⟩
  · exact ⟨by simp [Token.face, hgap.line], hgap.advance _⟩

/-- The kinds, literals and lines of the tokens do not depend on offset and column. -/
theorem tokensOnto_face (acc : List Token) (c : Cursor) : ∀ d acc', Level c d →
    acc.map Token.face = acc'.map Token.face →
    (c.tokensOnto acc).1.map Token.face = (d.tokensOnto acc').1.map Token.face := by
  fun_induction tokensOnto acc c with
  | case1 acc c next heof =>
    intro d acc' h hacc
    obtain ⟨hface, -⟩ := h.nextToken
    have heof' : d.nextToken.1.kind = .eof := (congrArg Prod.fst hface).symm.trans heof
    rw [tokensOnto, if_pos heof']
    simp [hacc, hface, next]
  | case2 acc c next heof ih =>
    intro d acc' h hacc
    obtain ⟨hface, hlevel⟩ := h.nextToken
    have heof' : d.nextToken.1.kind ≠ .eof := fun h' => heof ((congrArg Prod.fst hface).trans h')
    rw [tokensOnto.eq_def acc' d, if_neg heof']
    exact ih _ _ hlevel (by simp [hacc, hface, next])

theorem line_le_advance (n : Nat) (c : Cursor) : c.pos.line ≤ (c.advance n).pos.line := by
  induction n generalizing c with
  | zero => exact Int.le_refl _
  | succ n ih =>
    refine Int.le_trans ?_ (ih c.step)
    obtain ⟨rest, p⟩ := c
    cases rest with
    | nil => exact Int.le_refl _
    | cons b rest =>
      simp only [step, past]
      split
      · dsimp only
        omega
      · exact Int.le_refl _

theorem pos_nextToken (c : Cursor) : c.nextToken.1.pos = c.skipGap.pos := by
  unfold nextToken
  dsimp only
  split <;> rfl

theorem nextToken_newline (b : Bytes) (p : Position) :
    (⟨Text.newline :: b, p⟩ : Cursor).nextToken.1.kind = .eof ∨
    p.line < (⟨Text.newline :: b, p⟩ : Cursor).nextToken.1.pos.line := by
  cases b with
  | nil => exact .inl (nextToken_blanks (g := [Text.newline]) rfl (by simp [Blank, Text.newline])).1
  | cons x b =>
    have hgap : gap (Text.newline :: x :: b) = 1 + gap (x :: b) := gap_blank (by decide) (x :: b)
    have hnext : (⟨Text.newline :: x :: b, p⟩ : Cursor).skipGap =
        (⟨x :: b, ⟨p.offset + 1, p.line + 1, 1⟩⟩ : Cursor).advance (gap (x :: b)) := by
      rw [skipGap, hgap, Nat.add_comm, advance]
      rfl
    have hle := line_le_advance (gap (x :: b)) ⟨x :: b, ⟨p.offset + 1, p.line + 1, 1⟩⟩
    rw [pos_nextToken, hnext]
    dsimp only at hle
    right
    omega

theorem nextToken_comment (front : Bytes) {c x : Bytes} (hc : Text.newline ∉ c) (h0 : 0 ∉ c) (hx : x ≠ [])
    (hend : ∀ b ∈ x.head?, inLineComment b = false) :
    (⟨47 :: 47 :: (c ++ x), .behind front⟩ : Cursor).nextToken =
      (⟨x, .behind (front ++ 47 :: 47 :: c)⟩ : Cursor).nextToken :=
  nextToken_skipped front (gap_line hc h0 hend) hx

theorem nextToken_zero (front rest : Bytes) : (⟨0 :: rest, .behind front⟩ : Cursor).nextToken.1 =
    ⟨.illegal, txt "unexpected character '\\x00'", .behind front⟩ := by
  have hstep : gapStep (0 :: rest) = 0 := gapStep_eq_zero_iff.mpr ⟨by decide, fun h => absurd h (by decide)⟩
  have hread : read 0 rest = ⟨.illegal, txt "unexpected character " ++ Text.Quoted.quoteChar '\x00', 1⟩ := rfl
  have htext : txt "unexpected character " ++ Text.Quoted.quoteChar '\x00' =
      txt "unexpected character '\\x00'" := by
    decide +kernel
  rw [nextToken_read front hstep, hread, htext]

end Cursor

theorem Position.line_behind_comment {c : Bytes} (hc : Text.newline ∉ c) (a : Bytes) :
    (behind (a ++ 47 :: 47 :: c)).line = (behind a).line := by
  have h47 : (47 : UInt8) ≠ Text.newline := by decide
  simp [behind, List.count_eq_zero_of_not_mem hc, h47]

theorem tokenize_between {a : Bytes} (h : Lexeme.Between a) : ∃ ts : List Token, ∀ x, x ≠ [] →
    Text.Canonical.compose (a ++ x) = a ++ x →
    tokenize (a ++ x) = ts ++ ((⟨x, .behind a⟩ : Cursor).tokensOnto []).1 := by
  obtain ⟨ts, hts⟩ := Cursor.tokensOnto_between h []
  refine ⟨ts.reverse, fun x hx hcomposed => ?_⟩
  have hstart : Cursor.ofSource (a ++ x) = ⟨a ++ x, .behind []⟩ := by
    rw [Cursor.ofSource, hcomposed]
    rfl
  rw [tokenize, hstart, hts x [] hx, List.append_nil, List.nil_append, ← List.nil_append ts,
    Cursor.tokensOnto_append]
  simp

/-- A line comment behind a blank in code hides its line exactly if it holds no zero byte. The first zero byte ends
the comment and is a token of its own. -/
theorem line_comment_hidden_iff {a b c : Bytes} (hc : Text.newline ∉ c)
    (hblank : ∀ s ∈ a.getLast?, Lexeme.isBlank s = true) (hcode : Region.after .code a = .code)
    (hintact : ∀ front back, a = front ++ 0 :: back → Region.after .code front ≠ .line)
    (hwith : Text.Canonical.compose (a ++ 47 :: 47 :: (c ++ Text.newline :: b)) =
      a ++ 47 :: 47 :: (c ++ Text.newline :: b))
    (hwithout : Text.Canonical.compose (a ++ Text.newline :: b) = a ++ Text.newline :: b) :
    ((tokenize (a ++ 47 :: 47 :: (c ++ Text.newline :: b))).map Token.face =
      (tokenize (a ++ Text.newline :: b)).map Token.face ↔ 0 ∉ c) ∧
    ∀ c₁ c₂, c = c₁ ++ 0 :: c₂ → 0 ∉ c₁ →
      ⟨.illegal, txt "unexpected character '\\x00'", .behind (a ++ 47 :: 47 :: c₁)⟩ ∈
        tokenize (a ++ 47 :: 47 :: (c ++ Text.newline :: b)) := by
  obtain ⟨ts, hts⟩ := tokenize_between ⟨hblank, hcode, hintact⟩
  rw [hts _ (by simp) hwith, hts _ (by simp) hwithout]
  have hzero : ∀ c₁ c₂, c = c₁ ++ 0 :: c₂ → 0 ∉ c₁ →
      (⟨47 :: 47 :: (c ++ Text.newline :: b), .behind a⟩ : Cursor).nextToken.1 =
        ⟨.illegal, txt "unexpected character '\\x00'", .behind (a ++ 47 :: 47 :: c₁)⟩ := by
    rintro c₁ c₂ rfl h0
    have hc₁ : Text.newline ∉ c₁ := fun hm => hc (List.mem_append_left _ hm)
    rw [List.append_assoc, List.cons_append, Cursor.nextToken_comment a hc₁ h0 (by simp)
      (by simp [Lexeme.inLineComment]), Cursor.nextToken_zero]
  refine ⟨⟨?_, ?_⟩, ?_⟩
  · intro heq hmem
    obtain ⟨c₁, c₂, hsplit, h0⟩ := List.eq_append_cons_of_mem hmem
    have hc₁ : Text.newline ∉ c₁ := fun hm => hc (hsplit ▸ List.mem_append_left _ hm)
    rw [List.map_append, List.map_append] at heq
    -- the first tokens that can differ
    have hhead := congrArg List.head? (List.append_cancel_left heq)
    rw [List.head?_map, List.head?_map, Cursor.head?_tokensOnto, Cursor.head?_tokensOnto,
      hzero c₁ c₂ hsplit h0] at hhead
    obtain ⟨hkind, -, hline⟩ : _ ∧ _ ∧ _ := by simpa [Token.face] using hhead
    rw [Position.line_behind_comment hc₁] at hline
    rcases Cursor.nextToken_newline b (.behind a) with heof | hlt
    · rw [heof] at hkind
      cases hkind
    · omega
  · intro h0
    have hnext := Cursor.nextToken_comment a hc h0 (x := Text.newline :: b) (by simp)
      (by simp [Lexeme.inLineComment, Text.newline])
    have hface := Cursor.tokensOnto_face [] ⟨Text.newline :: b, .behind (a ++ 47 :: 47 :: c)⟩
      ⟨Text.newline :: b, .behind a⟩ [] ⟨rfl, Position.line_behind_comment hc a⟩ rfl
    rw [Cursor.tokensOnto_eq_of_nextToken hnext, List.map_append, List.map_append, hface]
  · intro c₁ c₂ hsplit h0
    refine List.mem_append_right _ (List.mem_of_mem_head? ?_)
    rw [Cursor.head?_tokensOnto, hzero c₁ c₂ hsplit h0]
    rfl

/-- A string that holds two slashes and a zero byte, and a blank. -/
def quotedSlashes : Bytes := [34, 47, 47, 0, 34, 32]

theorem quotedSlashes_hidden_iff :
    (tokenize (quotedSlashes ++ 47 :: 47 :: ([34, 0] ++ Text.newline :: [120]))).map Token.face ≠
      (tokenize (quotedSlashes ++ Text.newline :: [120])).map Token.face ∧
    (tokenize (quotedSlashes ++ 47 :: 47 :: ([34, 255] ++ Text.newline :: [120]))).map Token.face =
      (tokenize (quotedSlashes ++ Text.newline :: [120])).map Token.face := by
  have hblank : ∀ s ∈ quotedSlashes.getLast?, Lexeme.isBlank s = true := by
    intro s hs
    cases hs
    rfl
  have hintact : ∀ front back, quotedSlashes = front ++ 0 :: back → Region.after .code front ≠ .line := by
    intro front back h
    have hall : ∀ k < 6, (quotedSlashes.drop k).head? = some 0 →
        Region.after .code (quotedSlashes.take k) ≠ .line := by
      decide
    have hlen := congrArg List.length h
    have := hall front.length (by simp [quotedSlashes] at hlen; omega)
    simpa [h] using this
  have hcomposed : ∀ text ∈ [quotedSlashes ++ Text.newline :: [120],
      quotedSlashes ++ 47 :: 47 :: ([34, 0] ++ Text.newline :: [120]),
      quotedSlashes ++ 47 :: 47 :: ([34, 255] ++ Text.newline :: [120])],
      Text.Canonical.compose text = text := by
    decide +kernel
  have hwithout := hcomposed (quotedSlashes ++ Text.newline :: [120]) (by simp)
  constructor
  · intro heq
    exact (line_comment_hidden_iff (by decide) hblank (by decide) hintact (hcomposed _ (by simp)) hwithout).1.mp heq
      (by decide)
  · exact (line_comment_hidden_iff (by decide) hblank (by decide) hintact (hcomposed _ (by simp)) hwithout).1.mpr
      (by decide)

end RegCode
