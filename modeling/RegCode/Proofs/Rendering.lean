import RegCode.Proofs.Lexical

/-!
# Tokens that are read back

Tokens that are written with blanks between them are read back with their kinds and literals. Each of them is
`Written` in front of a blank or the end, and what is written so is read so: the reading of `Lexical` the other way
round. A string is written with its quotes, backslashes, line ends and tabs escaped and all other bytes as they are.
-/

namespace RegCode

namespace Lexeme

def escape (b : UInt8) : Bytes :=
  if b = 34 || b = 92 then [92, b]
  else if b = 10 then [92, 110]
  else if b = 13 then [92, 114]
  else if b = 9 then [92, 116]
  else [b]

/-- A token as it is written: a string between quotes, any other by its literal. -/
def spell (kind : Kind) (literal : Bytes) : Bytes :=
  if kind = .string then 34 :: (literal.flatMap escape ++ [34]) else literal

/-- The kinds and literals of the tokens that have a spelling. -/
inductive Regular : Kind → Bytes → Prop where
  | keyword {w : Bytes} {k : Kind} : (w, k) ∈ reserved → Regular k w
  | ident {b : UInt8} {w : Bytes} : Letter b → (∀ x ∈ w, WordByte x) → (∀ k, (b :: w, k) ∉ reserved) →
      Regular .ident (b :: w)
  | int {ds : Bytes} : ds ≠ [] → (∀ d ∈ ds, Digit d) → Regular .int ds
  | float {ds es : Bytes} : ds ≠ [] → (∀ d ∈ ds, Digit d) → es ≠ [] → (∀ d ∈ es, Digit d) →
      Regular .float (ds ++ 46 :: es)
  | sign {w : Bytes} {k : Kind} : (w, k) ∈ signs → Regular k w
  | string {s : Bytes} : Regular .string s

/-- Tokens in order, with at least one blank between neighbours. -/
inductive Spaced : List (Kind × Bytes) → Bytes → Prop where
  | nil : Spaced [] []
  | cons {k : Kind} {literal g text : Bytes} {ts : List (Kind × Bytes)} : Regular k literal → (∀ b ∈ g, Blank b) →
      (ts ≠ [] → g ≠ []) → Spaced ts text → Spaced ((k, literal) :: ts) (spell k literal ++ (g ++ text))

/-! ## Spellings -/

theorem content_escape (b : UInt8) {w s : Bytes} (h : Content w s) : Content (escape b ++ w) (b :: s) := by
  unfold escape
  by_cases hself : b = 34 ∨ b = 92
  · rcases hself with rfl | rfl
    · exact .escape .quote h
    · exact .escape .backslash h
  obtain ⟨h34, h92⟩ := not_or.mp hself
  by_cases h10 : b = 10
  · subst h10
    exact .escape .lineFeed h
  by_cases h13 : b = 13
  · subst h13
    exact .escape .carriageReturn h
  by_cases h9 : b = 9
  · subst h9
    exact .escape .tab h
  simp only [h34, h92, h10, h13, h9, decide_false, Bool.or_self, Bool.false_eq_true, ite_false]
  exact .plain h34 h92 h

theorem content_flatMap_escape (s : Bytes) : Content (s.flatMap escape) s := by
  induction s with
  | nil => exact .nil
  | cons b s ih => exact content_escape b ih

theorem spell_of_ne {k : Kind} (h : k ≠ .string) (literal : Bytes) : spell k literal = literal := if_neg h

theorem Blank.ends {b : UInt8} (h : Blank b) :
    isWordByte b = false ∧ Text.isDigit b = false ∧ b ∉ [61, 47, 42, 46] := by
  simp only [Blank, List.mem_cons, List.not_mem_nil, or_false] at h
  rcases h with rfl | rfl | rfl | rfl <;> decide

theorem Regular.written {k : Kind} {literal after : Bytes} (h : Regular k literal)
    (ha : ∀ b ∈ after.head?, Blank b) :
    Written after k literal (spell k literal) := by
  have hword : ∀ x ∈ after.head?, ¬ WordByte x := fun x hx => isWordByte_eq_false_iff.mp (ha x hx).ends.1
  have hdigit : ∀ x ∈ after.head?, ¬ Digit x := fun x hx => isDigit_eq_false_iff.mp (ha x hx).ends.2.1
  have hother : ∀ x ∈ ([61, 47, 42, 46] : Bytes), after.head? ≠ some x := by
    intro x hx heq
    exact (ha x heq).ends.2.2 hx
  cases h with
  | keyword hk =>
    obtain ⟨-, hs, hne, hletter, hall⟩ := reserved_spec _ hk
    obtain ⟨b, w, rfl⟩ := List.exists_cons_of_ne_nil hne
    rw [spell_of_ne hs]
    exact .word (isLetter_iff.mp (hletter b rfl)) (fun x hx => isWordByte_iff.mp (hall x (.tail b hx))) hword
      (.inl hk)
  | ident hb hw hno =>
    rw [spell_of_ne (by decide)]
    exact .word hb hw hword (.inr ⟨rfl, hno⟩)
  | int hne hds =>
    rw [spell_of_ne (by decide)]
    refine .int hne hds hdigit ?_
    rintro x rest rfl
    exact absurd rfl (hother 46 (by decide))
  | float hne hds hne' hes =>
    rw [spell_of_ne (by decide)]
    exact .float hne hds hne' hes hdigit
  | sign hk =>
    have hs : ∀ p ∈ signs, p.2 ≠ .string := by decide
    rw [spell_of_ne (hs _ hk)]
    refine .sign hk (fun _ => hother 61 (by decide)) fun _ => ?_
    exact ⟨hother 47 (by decide), hother 42 (by decide)⟩
  | string => exact .string (content_flatMap_escape literal)

/-! ## Reading -/

theorem signs_lookup : ∀ p ∈ signs, ∀ b ∈ p.1.head?,
    p.1 = [b] ∧ extensible? b = none ∧ single? b = some p.2 ∨
    p.1 = [b] ∧ (extensible? b).map Prod.fst = some p.2 ∧ p.2 ∈ [.assign, .bang, .less, .greater] ∨
    p.1 = [b, 61] ∧ (extensible? b).map Prod.snd = some p.2 := by
  decide +kernel

theorem lookup_eq_none {b : UInt8} (h : isWordByte b = true ∨ b = 34) :
    extensible? b = none ∧ single? b = none := by
  have hapart {k : Kind} {rest : Bytes} (hk : (b :: rest, k) ∈ signs) : False := by
    obtain ⟨hw, h34, -⟩ := (signs_apart _ hk).2 b rfl
    rcases h with h | h
    · simp [hw] at h
    · exact h34 h
  constructor
  · cases hx : extensible? b with
    | none => rfl
    | some p => exact (hapart (extensible?_spec hx).1).elim
  · cases hs : single? b with
    | none => rfl
    | some k => exact (hapart (single?_spec hs).1).elim

theorem read_sign {b : UInt8} {rest after : Bytes} {k : Kind} (hk : (b :: rest, k) ∈ signs)
    (hone : k ∈ [.assign, .bang, .less, .greater] → after.head? ≠ some 61) :
    read b (rest ++ after) = ⟨k, b :: rest, (b :: rest).length⟩ := by
  rcases signs_lookup _ hk b rfl with ⟨hb, hx, hs⟩ | ⟨hb, hx, hmem⟩ | ⟨hb, hx⟩
  · cases hb
    simp [read, hx, hs]
  · cases hb
    obtain ⟨⟨one, two⟩, hp, rfl⟩ := Option.map_eq_some_iff.mp hx
    simp only [read, hp, List.nil_append]
    split
    · exact absurd rfl (hone hmem)
    · rfl
  · cases hb
    obtain ⟨⟨one, two⟩, hp, rfl⟩ := Option.map_eq_some_iff.mp hx
    simp [read, hp]

theorem isLetter_of_isDigit {b : UInt8} (h : Text.isDigit b = true) : isLetter b = false := by
  simp [Text.isDigit, isLetter, UInt8.le_iff_toNat_le, ← UInt8.toNat_inj] at h ⊢
  omega

theorem read_digit {b : UInt8} (h : Text.isDigit b = true) (rest : Bytes) : read b rest = number (b :: rest) := by
  obtain ⟨hx, hs⟩ := lookup_eq_none (b := b) (.inl (by simp [isWordByte, h]))
  have h34 : b ≠ 34 := by
    rintro rfl
    exact absurd h (by decide)
  simp [read, hx, hs, h34, h, isLetter_of_isDigit h]

theorem read_letter {b : UInt8} (h : isLetter b = true) (rest : Bytes) : read b rest = word (b :: rest) := by
  obtain ⟨hx, hs⟩ := lookup_eq_none (b := b) (.inl (by simp [isWordByte, h]))
  have h34 : b ≠ 34 := by
    rintro rfl
    exact absurd h (by decide)
  simp [read, hx, hs, h34, h]

theorem read_quote (rest : Bytes) : read 34 rest = stringRest [] 1 rest := rfl

theorem gapStep_opening {b : UInt8} (h : isWordByte b = true ∨ b = 34) (rest : Bytes) :
    gapStep (b :: rest) = 0 := by
  refine gapStep_eq_zero_iff.mpr ⟨?_, ?_⟩
  · by_contra hb
    rw [Bool.not_eq_false] at hb
    rcases h with h | rfl
    · simp [(isBlank_iff.mp hb).ends.1] at h
    · exact absurd hb (by decide)
  · rintro rfl
    exact absurd h (by decide)

/-- What is written as a token is read as it, and no gap is skipped in front of it. -/
theorem Written.read_eq {k : Kind} {literal raw after : Bytes} (h : Written after k literal raw)
    (hk : k ≠ .illegal) :
    ∃ b rest, raw = b :: rest ∧ gapStep (b :: (rest ++ after)) = 0 ∧
      read b (rest ++ after) = ⟨k, literal, raw.length⟩ := by
  cases h with
  | @word b w _ hb hw ha hkind =>
    have hall : ∀ x ∈ b :: w, isWordByte x = true := by
      rw [List.forall_mem_cons]
      exact ⟨isWordByte_iff.mpr (.inl hb), fun x hx => isWordByte_iff.mpr (hw x hx)⟩
    refine ⟨b, w, rfl, gapStep_opening (.inl (hall b (.head w))) _, ?_⟩
    rw [read_letter (isLetter_iff.mpr hb), ← List.cons_append,
      word_run hall fun x hx => isWordByte_eq_false_iff.mpr (ha x hx), wordKind_iff.mp hkind]
  | int hne hds ha hpoint =>
    obtain ⟨d, ds, rfl⟩ := List.exists_cons_of_ne_nil hne
    have hds' : ∀ x ∈ d :: ds, Text.isDigit x = true := fun x hx => isDigit_iff.mpr (hds x hx)
    refine ⟨d, ds, rfl, gapStep_opening (.inl (isWordByte_iff.mpr (.inr (hds d (.head ds))))) _, ?_⟩
    rw [read_digit (hds' d (.head ds)), ← List.cons_append, number_int hds'
      (fun x hx => isDigit_eq_false_iff.mpr (ha x hx)) fun x rest hx => isDigit_eq_false_iff.mpr (hpoint x rest hx)]
  | @float ds es hne hds hne' hes ha =>
    obtain ⟨d, ds, rfl⟩ := List.exists_cons_of_ne_nil hne
    have hds' : ∀ x ∈ d :: ds, Text.isDigit x = true := fun x hx => isDigit_iff.mpr (hds x hx)
    refine ⟨d, ds ++ 46 :: es, rfl, gapStep_opening (.inl (isWordByte_iff.mpr (.inr (hds d (.head ds))))) _, ?_⟩
    have heq : d :: (ds ++ 46 :: es ++ after) = d :: ds ++ 46 :: (es ++ after) := by simp
    rw [read_digit (hds' d (.head ds)), heq, number_float hds' hne' (fun d hd => isDigit_iff.mpr (hes d hd))
      fun x hx => isDigit_eq_false_iff.mpr (ha x hx)]
    simp only [List.length_append, List.length_cons]
    congr 1
    omega
  | sign hmem hone hslash =>
    obtain ⟨b, rest, rfl⟩ := List.exists_cons_of_ne_nil (signs_apart _ hmem).1
    refine ⟨b, rest, rfl, gapStep_eq_zero_iff.mpr ?_, read_sign hmem hone⟩
    obtain ⟨-, -, hblank, h47⟩ := (signs_apart _ hmem).2 b rfl
    refine ⟨hblank, fun hb => ?_⟩
    cases h47 hb
    exact hslash rfl
  | @string w s hw =>
    refine ⟨34, w ++ [34], rfl, gapStep_opening (.inr rfl) _, ?_⟩
    rw [List.append_assoc, read_quote, List.singleton_append, stringRest_content hw]
    simp only [List.reverse_nil, List.nil_append, List.length_append, List.length_cons, List.length_nil]
    congr 1
    omega
  | character | stray | unterminated => exact absurd rfl hk

theorem Regular.kind_ne {k : Kind} {literal : Bytes} (h : Regular k literal) : k ≠ .illegal ∧ k ≠ .eof := by
  cases h with
  | keyword hk =>
    have hall : ∀ p ∈ reserved, p.2 ≠ .illegal ∧ p.2 ≠ .eof := by decide
    exact hall _ hk
  | sign hk =>
    have hall : ∀ p ∈ signs, p.2 ≠ .illegal ∧ p.2 ≠ .eof := by decide
    exact hall _ hk
  | ident | int | float | string => decide

theorem Spaced.head?_blank {ts : List (Kind × Bytes)} {g text : Bytes} (h : Spaced ts text) (hg : ∀ b ∈ g, Blank b)
    (hsep : ts ≠ [] → g ≠ []) : ∀ b ∈ (g ++ text).head?, Blank b := by
  intro b hb
  cases g with
  | nil =>
    cases h with
    | nil => cases hb
    | cons => exact absurd rfl (hsep (by simp))
  | cons x g =>
    cases hb
    exact hg _ (.head g)

theorem gap_blanks {g after : Bytes} (hg : ∀ b ∈ g, Blank b) (h : gapStep after = 0) :
    gap (g ++ after) = g.length := by
  have hblank : ∀ b ∈ g, isBlank b = true := fun b hb => isBlank_iff.mpr (hg b hb)
  have hstop (n : Nat) : gapFrom n after = (n, after) := by rw [gapFrom, if_pos h]
  cases g with
  | nil => rw [gap, List.nil_append, hstop]; rfl
  | cons b g =>
    have hafter : ∀ x ∈ after.head?, isBlank x = false := by
      intro x hx
      obtain ⟨tail, rfl⟩ := List.head?_eq_some_iff.mp hx
      exact (gapStep_eq_zero_iff.mp h).1
    have hstep : gapStep (b :: g ++ after) = (b :: g).length := by
      rw [List.cons_append, gapStep_of_no_comment, ← List.cons_append, takeWhile_run hblank hafter]
      rintro rfl
      exact absurd (hblank 47 (.head g)) (by decide)
    rw [gap, gapFrom, hstep, if_neg (by simp), List.drop_left, hstop, Nat.zero_add]

end Lexeme

/-! ## Whole texts -/

namespace Cursor

open Lexeme

theorem nextToken_blanks {c : Cursor} {g : Bytes} (hc : c.rest = g) (hg : ∀ b ∈ g, Blank b) :
    c.nextToken.1.kind = .eof ∧ c.nextToken.1.literal = [] := by
  have hrest : c.skipGap.rest = [] := by
    apply rest_skipGap (g := g) (by rw [hc, List.append_nil])
    rw [hc]
    simpa using gap_blanks hg (show gapStep [] = 0 from rfl)
  unfold nextToken
  simp [hrest]

theorem nextToken_written {c : Cursor} {g raw after literal : Bytes} {k : Kind} (hc : c.rest = g ++ (raw ++ after))
    (hg : ∀ b ∈ g, Blank b) (hw : Written after k literal raw) (hk : k ≠ .illegal) :
    c.nextToken.1.kind = k ∧ c.nextToken.1.literal = literal ∧ c.nextToken.2.rest = after := by
  obtain ⟨b, rest, rfl, hstep, hread⟩ := hw.read_eq hk
  have hgap : gap c.rest = g.length := by
    rw [hc]
    exact gap_blanks hg hstep
  have hrest := rest_skipGap hc hgap
  rw [List.cons_append] at hrest
  unfold nextToken
  simp only [hrest, hread, rest_advance]
  exact ⟨trivial, trivial, List.drop_left ..⟩

theorem tokensOnto_spaced {ts : List (Kind × Bytes)} {text : Bytes} (h : Spaced ts text) (acc : List Token)
    (c : Cursor) {g : Bytes} (hc : c.rest = g ++ text) (hg : ∀ b ∈ g, Blank b) :
    (c.tokensOnto acc).1.map (fun t => (t.kind, t.literal)) =
      acc.reverse.map (fun t => (t.kind, t.literal)) ++ (ts ++ [(.eof, [])]) := by
  induction h generalizing acc c g with
  | nil =>
    rw [List.append_nil] at hc
    obtain ⟨hk, hl⟩ := nextToken_blanks hc hg
    rw [tokensOnto, if_pos hk]
    simp [hk, hl]
  | @cons k literal g' text ts hr hg' hsep hts ih =>
    have hw := hr.written (hts.head?_blank hg' hsep)
    obtain ⟨hk, hl, hrest⟩ := nextToken_written hc hg hw hr.kind_ne.1
    have hne : c.nextToken.1.kind ≠ .eof := hk ▸ hr.kind_ne.2
    rw [tokensOnto, if_neg hne, ih _ _ hrest hg']
    simp [hk, hl]

end Cursor

/-- Tokens that are written with blanks between them are read back. -/
theorem tokenize_spaced (ts : List (Kind × Bytes)) (lead text : Bytes) (h : Lexeme.Spaced ts text)
    (hlead : ∀ b ∈ lead, Lexeme.Blank b) (hc : Text.Canonical.compose (lead ++ text) = lead ++ text) :
    (tokenize (lead ++ text)).map (fun t => (t.kind, t.literal)) = ts ++ [(.eof, [])] := by
  have hrest : (Cursor.ofSource (lead ++ text)).rest = lead ++ text := hc
  exact Cursor.tokensOnto_spaced h [] _ hrest hlead

/-- A keyword, a name, numbers, operators and a string of a quote, a zero byte, a backslash, a stray byte and a line
feed. -/
def spacedTokens : List (Kind × Bytes) :=
  [(.kwPrint, txt "print"), (.ident, txt "printed_2"), (.slash, txt "/"), (.string, [34, 0, 92, 255, 10]),
   (.lessEqual, txt "<="), (.float, txt "00.50"), (.int, txt "7")]

def spacedText : Bytes := txt "print\tprinted_2 /\t \"\\\"" ++ 0 :: txt "\\\\" ++ 255 :: txt "\\n\" <=\n00.50\r\n7"

theorem spacedText_spaced : Lexeme.Spaced spacedTokens spacedText := by
  have htext : spacedText = Lexeme.spell .kwPrint (txt "print") ++ ([9] ++
      (Lexeme.spell .ident (112 :: txt "rinted_2") ++ ([32] ++ (Lexeme.spell .slash (txt "/") ++ ([9, 32] ++
        (Lexeme.spell .string [34, 0, 92, 255, 10] ++ ([32] ++ (Lexeme.spell .lessEqual (txt "<=") ++ ([10] ++
          (Lexeme.spell .float (txt "00" ++ 46 :: txt "50") ++ ([13, 10] ++
            (Lexeme.spell .int (txt "7") ++ ([] ++ []))))))))))))) ∧
      spacedTokens = [(.kwPrint, txt "print"), (.ident, 112 :: txt "rinted_2"), (.slash, txt "/"),
        (.string, [34, 0, 92, 255, 10]), (.lessEqual, txt "<="), (.float, txt "00" ++ 46 :: txt "50"),
        (.int, txt "7")] := by
    decide +kernel
  have hparts : (txt "print", Kind.kwPrint) ∈ Lexeme.reserved ∧
      112 :: txt "rinted_2" ∉ Lexeme.reserved.map Prod.fst ∧ (∀ x ∈ txt "rinted_2", Lexeme.WordByte x) ∧
      (txt "/", Kind.slash) ∈ Lexeme.signs ∧ (txt "<=", Kind.lessEqual) ∈ Lexeme.signs ∧
      ∀ ds ∈ [txt "00", txt "50", txt "7"], ds ≠ [] ∧ ∀ d ∈ ds, Lexeme.Digit d := by
    decide +kernel
  obtain ⟨hprint, hname, hword, hslash, hle, hdigits⟩ := hparts
  obtain ⟨htwo, htwo'⟩ := hdigits (txt "00") (by simp)
  obtain ⟨hfifty, hfifty'⟩ := hdigits (txt "50") (by simp)
  obtain ⟨hseven, hseven'⟩ := hdigits (txt "7") (by simp)
  rw [htext.1, htext.2]
  refine .cons (.keyword hprint) (by simp [Lexeme.Blank]) (by simp) ?_
  refine .cons (.ident (by decide) hword fun k hk => hname (List.mem_map_of_mem hk)) (by simp [Lexeme.Blank])
    (by simp) ?_
  refine .cons (.sign hslash) (by simp [Lexeme.Blank]) (by simp) ?_
  refine .cons .string (by simp [Lexeme.Blank]) (by simp) ?_
  refine .cons (.sign hle) (by simp [Lexeme.Blank]) (by simp) ?_
  refine .cons (.float htwo htwo' hfifty hfifty') (by simp [Lexeme.Blank]) (by simp) ?_
  exact .cons (.int hseven hseven') (by simp) (by simp) .nil

theorem spacedText_read : Text.Canonical.compose ([10] ++ spacedText) = [10] ++ spacedText ∧
    (tokenize ([10] ++ spacedText)).map (fun t => (t.kind, t.literal)) = spacedTokens ++ [(.eof, [])] := by
  have hc : Text.Canonical.compose ([10] ++ spacedText) = [10] ++ spacedText := by decide +kernel
  exact ⟨hc, tokenize_spaced spacedTokens [10] spacedText spacedText_spaced (by simp [Lexeme.Blank]) hc⟩

end RegCode
