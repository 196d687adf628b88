import RegCode.Proofs.Composition
import RegCode.Proofs.Quotation
import RegCode.Proofs.Vocabulary

/-!
# Literals that are read back

The text of a literal is read back as the literal if it is a numeral without an exponent, or a string that is quoted
as a source writes strings. A source has no exponents, and no escapes but those for quotation marks, backslashes,
line ends and tabs. And a source is composed before it is read, so that a mark behind an escape may be joined to its
letter.

That nothing else is read back is a matter of counting. Composition keeps the numbers of backslashes and of
quotation marks. What is read between two quotation marks has at most as many backslashes as a source needs to write
it, and an escape that a source does not know has one more.
-/

namespace RegCode

namespace Lexeme

/-! ## Strings in a source -/

theorem escape_of_not_special {b : UInt8} (h : b ∉ [9, 10, 13, 34, 92]) : escape b = [b] := by
  simp only [List.mem_cons, List.not_mem_nil, or_false, not_or] at h
  obtain ⟨h9, h10, h13, h34, h92⟩ := h
  simp [escape, h9, h10, h13, h34, h92]

theorem unescape_cases (b : UInt8) :
    (∃ x, unescape b = [x] ∧ escape x = [92, b]) ∨ (unescape b = [92, b] ∧ b ≠ 34 ∧ b ≠ 92) := by
  unfold unescape
  split_ifs with h₁ h₂ h₃ h₄
  · simp only [Bool.or_eq_true, decide_eq_true_eq] at h₁
    rcases h₁ with rfl | rfl
    · exact .inl ⟨34, rfl, rfl⟩
    · exact .inl ⟨92, rfl, rfl⟩
  · subst h₂
    exact .inl ⟨10, rfl, rfl⟩
  · subst h₃
    exact .inl ⟨13, rfl, rfl⟩
  · subst h₄
    exact .inl ⟨9, rfl, rfl⟩
  · simp only [Bool.or_eq_true, decide_eq_true_eq, not_or] at h₁
    exact .inr ⟨rfl, h₁⟩

/-- What stands between quotes has at most as many backslashes as are needed for what it means, if no line end or
tab stands there as it is. It has as many only if it is written by these escapes. -/
theorem count_backslash_content {w s : Bytes} (h : Content w s) (hw : ∀ b ∈ w, b ∉ [9, 10, 13]) :
    w.count 92 ≤ (s.flatMap escape).count 92 ∧ (w.count 92 = (s.flatMap escape).count 92 →
    w = s.flatMap escape) := by
  induction h with
  | nil => exact ⟨Nat.le_refl _, fun _ => rfl⟩
  | @plain b w s h34 h92 _ ih =>
    obtain ⟨hb, hw⟩ := List.forall_mem_cons.mp hw
    obtain ⟨hle, heq⟩ := ih hw
    have hescape : escape b = [b] := by
      refine escape_of_not_special ?_
      simp only [List.mem_cons, List.not_mem_nil, or_false, not_or] at hb ⊢
      exact ⟨hb.1, hb.2.1, hb.2.2, h34, h92⟩
    rw [List.flatMap_cons, hescape, List.count_cons_of_ne h92, List.singleton_append, List.count_cons_of_ne h92]
    exact ⟨hle, fun h => by rw [heq h]⟩
  | @escape b e w s he _ ih =>
    obtain ⟨-, hw'⟩ := List.forall_mem_cons.mp hw
    obtain ⟨hb, hw'⟩ := List.forall_mem_cons.mp hw'
    obtain ⟨hle, heq⟩ := ih hw'
    rw [he.eq_unescape]
    rcases unescape_cases b with ⟨x, hx, hesc⟩ | ⟨hx, h34, h92⟩
    · rw [hx, List.singleton_append, List.flatMap_cons, hesc]
      simp only [List.count_cons, List.cons_append, List.nil_append]
      refine ⟨by omega, fun h => by rw [heq (by omega)]⟩
    · have hescape : escape b = [b] := by
        refine escape_of_not_special ?_
        simp only [List.mem_cons, List.not_mem_nil, or_false, not_or] at hb ⊢
        exact ⟨hb.1, hb.2.1, hb.2.2, h34, h92⟩
      have hlt : (92 :: b :: w).count 92 < ((unescape b ++ s).flatMap escape).count 92 := by
        rw [hx, List.cons_append, List.cons_append, List.nil_append, List.flatMap_cons, List.flatMap_cons, hescape]
        have h92' : escape 92 = [92, 92] := rfl
        rw [h92', List.count_append, List.count_append, List.count_cons_self, List.count_cons_of_ne h92,
          List.count_singleton, if_neg (by simpa using h92)]
        simp
        omega
      exact ⟨Nat.le_of_lt hlt, fun h => absurd h (Nat.ne_of_lt hlt)⟩

theorem count_unescape (b : UInt8) : (unescape b).count 34 = [b].count 34 := by
  unfold unescape
  split_ifs with h₁ h₂ h₃ h₄
  · rfl
  · subst h₂
    rfl
  · subst h₃
    rfl
  · subst h₄
    rfl
  · rw [List.count_cons_of_ne (by decide)]

theorem flatMap_escape {w : Bytes} (h : ∀ b ∈ w, b ∉ [9, 10, 13, 34, 92]) : w.flatMap escape = w := by
  induction w with
  | nil => rfl
  | cons b w ih =>
    obtain ⟨hb, hw⟩ := List.forall_mem_cons.mp h
    rw [List.flatMap_cons, escape_of_not_special hb, ih hw, List.singleton_append]

theorem count_quote_content {w s : Bytes} (h : Content w s) : w.count 34 = s.count 34 := by
  induction h with
  | nil => rfl
  | plain h34 h92 _ ih => rw [List.count_cons_of_ne h34, List.count_cons_of_ne h34, ih]
  | @escape b e w s he _ ih =>
    rw [List.count_cons_of_ne (by decide), ← List.singleton_append, List.count_append, List.count_append, ih,
      he.eq_unescape, count_unescape]

theorem Written.content {after s raw : Bytes} (h : Written after .string s raw) :
    ∃ w, Content w s ∧ raw = 34 :: (w ++ [34]) := by
  generalize hk : Kind.string = k at h
  cases h with
  | word _ _ _ hkind =>
    rcases hkind with hmem | ⟨h, -⟩
    · exact absurd hk.symm (reserved_spec _ hmem).2.1
    · cases hk.trans h
  | sign hmem =>
    have hall : ∀ p ∈ signs, p.2 ≠ .string := by decide
    exact absurd hk.symm (hall _ hmem)
  | string hw => exact ⟨_, hw, rfl⟩
  | int | float | character | stray | unterminated => cases hk

/-- A text between quotation marks that is read as a string is all of the string, if it holds no more quotation
marks than the string. -/
theorem content_of_read {w s : Bytes} (hgap : gapStep (34 :: (w ++ [34])) = 0)
    (hk : (read 34 (w ++ [34])).kind = .string) (hs : (read 34 (w ++ [34])).literal = s)
    (hcount : w.count 34 ≤ s.count 34) : Content w s := by
  obtain ⟨raw, after, htext, hw, -⟩ := read_written hgap
  rw [hk, hs] at hw
  obtain ⟨w', hcontent, rfl⟩ := hw.content
  have heq : w ++ [34] = w' ++ 34 :: after := by simpa using htext
  have hafter : after.count 34 = 0 := by
    have h := congrArg (List.count 34) heq
    simp only [List.count_append, List.count_cons_self, List.count_nil, count_quote_content hcontent] at h
    omega
  rcases List.eq_nil_or_concat after with rfl | ⟨front, b, rfl⟩
  · rwa [(List.append_inj' heq rfl).1]
  · -- the last byte behind the string would be a quotation mark
    rw [List.concat_eq_append, ← List.cons_append, ← List.append_assoc] at heq
    obtain ⟨-, hlast⟩ := List.append_inj' heq rfl
    cases hlast
    simp at hafter

end Lexeme

namespace Text.Quoted

/-! ## Quoted strings -/

def Shown (cell : Utf8.Cell) : Prop := ∃ c, cell = .scalar c ∧ (isPrintable c = true ∨ c.toNat ∈ [9, 10, 13])

theorem isPrintable_marks : isPrintable '"' = true ∧ isPrintable '\\' = true ∧ isPrintable '\n' = false ∧
    isPrintable '\r' = false ∧ isPrintable '\t' = false := by
  decide +kernel

theorem not_mem_of_isPrintable {c : Char} (h : isPrintable c = true) : c.toNat ∉ [9, 10, 13] := by
  obtain ⟨-, -, hn, hr, ht⟩ := isPrintable_marks
  intro hmem
  simp only [List.mem_cons, List.not_mem_nil, or_false] at hmem
  rcases hmem with hc | hc | hc
  · rw [show c = '\t' from Char.toNat_inj.mp hc, ht] at h
    cases h
  · rw [show c = '\n' from Char.toNat_inj.mp hc, hn] at h
    cases h
  · rw [show c = '\r' from Char.toNat_inj.mp hc, hr] at h
    cases h

theorem flatMap_escape_encode {c : Char} (h : c.toNat ∉ [9, 10, 13, 34, 92]) :
    (String.utf8EncodeChar c).flatMap Lexeme.escape = String.utf8EncodeChar c := by
  refine Lexeme.flatMap_escape fun b hb hmem => h ?_
  have hspecial : ∀ b ∈ ([9, 10, 13, 34, 92] : Bytes), b.toNat < 128 ∧ b.toNat ∈ [9, 10, 13, 34, 92] := by simp
  rw [Utf8.toNat_of_mem_encode hb (hspecial b hmem).1]
  exact (hspecial b hmem).2

theorem escapeCell_shown {cell : Utf8.Cell} (h : Shown cell) :
    escapeCell '"' cell = cell.bytes.flatMap Lexeme.escape := by
  obtain ⟨c, rfl, hc⟩ := h
  by_cases hq : c = '"' ∨ c = '\\'
  · rcases hq with rfl | rfl <;> decide
  rcases hc with hp | hc
  · rw [escapeCell, escape, if_neg (by simpa using hq), if_pos hp, Utf8.Cell.bytes, flatMap_escape_encode]
    have hno := not_mem_of_isPrintable hp
    obtain ⟨h34, h92⟩ := not_or.mp hq
    simp only [List.mem_cons, List.not_mem_nil, or_false, not_or] at hno ⊢
    exact ⟨hno.1, hno.2.1, hno.2.2, fun h => h34 (Char.toNat_inj.mp h), fun h => h92 (Char.toNat_inj.mp h)⟩
  · simp only [List.mem_cons, List.not_mem_nil, or_false] at hc
    rcases hc with hc | hc | hc
    · rw [show c = '\t' from Char.toNat_inj.mp hc]
      decide +kernel
    · rw [show c = '\n' from Char.toNat_inj.mp hc]
      decide +kernel
    · rw [show c = '\r' from Char.toNat_inj.mp hc]
      decide +kernel

theorem escapeCell_not_shown {cell : Utf8.Cell} (hr : Readable cell) (h : ¬ Shown cell) :
    (cell.bytes.flatMap Lexeme.escape).count 92 = 0 ∧ 0 < (escapeCell '"' cell).count 92 := by
  constructor
  · cases cell with
    | stray b =>
      have hb : b ∉ ([9, 10, 13, 34, 92] : Bytes) := by
        have hspecial : ∀ b ∈ ([9, 10, 13, 34, 92] : Bytes), b.toNat < 128 := by simp
        exact fun hmem => absurd (hspecial b hmem) (Nat.not_lt.mpr hr)
      rw [Utf8.Cell.bytes, Lexeme.flatMap_escape (by simpa using hb), List.count_eq_zero]
      simp only [List.mem_cons, List.not_mem_nil, or_false, not_or] at hb ⊢
      exact Ne.symm hb.2.2.2.2
    | scalar c =>
      have hc : c.toNat ∉ [9, 10, 13, 34, 92] := by
        obtain ⟨h34, h92, -⟩ := isPrintable_marks
        intro hmem
        rcases List.mem_append (s := [9, 10, 13]) (t := [34, 92]).mp hmem with hmem | hmem
        · exact h ⟨c, rfl, .inr hmem⟩
        · simp only [List.mem_cons, List.not_mem_nil, or_false] at hmem
          rcases hmem with hc | hc
          · obtain rfl : c = '"' := Char.toNat_inj.mp hc
            exact h ⟨_, rfl, .inl h34⟩
          · obtain rfl : c = '\\' := Char.toNat_inj.mp hc
            exact h ⟨_, rfl, .inl h92⟩
      rw [Utf8.Cell.bytes, flatMap_escape_encode hc, List.count_eq_zero]
      intro hmem
      rw [Utf8.toNat_of_mem_encode hmem (by decide)] at hc
      exact hc (by decide)
  · rcases escapeCell_cases hr with ⟨c, rfl, hp, -⟩ | ⟨l, -, n, he, -⟩
    · exact absurd ⟨c, rfl, .inl hp⟩ h
    · rw [he, List.count_cons_self]
      exact Nat.succ_pos _

theorem mem_hexWith (write : Nat → UInt8) {P : UInt8 → Prop} (hw : ∀ d < 16, P (write d)) (width n : Nat) :
    ∀ b ∈ hexWith write width n, P b := by
  induction width generalizing n with
  | zero => simp [hexWith]
  | succ width ih =>
    rw [hexWith]
    exact List.forall_mem_append.mpr ⟨ih _, List.forall_mem_singleton.mpr (hw _ (Nat.mod_lt n (by decide)))⟩

theorem escapeCell_marks {cell : Utf8.Cell} (hr : Readable cell) :
    (∀ b ∈ escapeCell '"' cell, b ∉ [9, 10, 13]) ∧ (escapeCell '"' cell).count 34 ≤ cell.bytes.count 34 := by
  rcases escapeCell_cases hr with ⟨c, rfl, hp, h34, -, he⟩ | ⟨l, hl, n, he, -, hcell⟩
  · rw [he]
    refine ⟨fun b hb hmem => not_mem_of_isPrintable hp ?_, Nat.le_refl _⟩
    have hspecial : ∀ b ∈ ([9, 10, 13] : Bytes), b.toNat < 128 ∧ b.toNat ∈ [9, 10, 13] := by simp
    rw [Utf8.toNat_of_mem_encode hb (hspecial b hmem).1]
    exact (hspecial b hmem).2
  · have hletters : ∀ l ∈ letters, l ∉ [9, 10, 13] := by simp [letters]
    have hdigits := mem_hexWith hexDigit (P := fun b => b ∉ [9, 10, 13, 34]) (by decide) (digitsBehind l) n
    rw [he]
    refine ⟨List.forall_mem_cons.mpr ⟨by decide, List.forall_mem_cons.mpr ⟨hletters l hl, fun b hb h => ?_⟩⟩, ?_⟩
    · exact hdigits b hb (List.mem_append_left [34] h)
    · have hzero : (hex (digitsBehind l) n).count 34 = 0 :=
        List.count_eq_zero.mpr fun hmem => hdigits 34 hmem (by decide)
      rw [List.count_cons_of_ne (by decide), List.count_cons, hzero, Nat.zero_add]
      by_cases h34 : l = 34
      · subst h34
        rw [← hcell, show ofEscape 34 n = .scalar '"' from rfl]
        decide
      · simp [h34]

def inside (s : Bytes) : Bytes := (Utf8.cells s).flatMap (escapeCell '"')

theorem quote_eq (s : Bytes) : quote s = 34 :: (inside s ++ [34]) := rfl

theorem flatMap_escapeCell_shown {cells : List Utf8.Cell} (h : ∀ cell ∈ cells, Shown cell) :
    cells.flatMap (escapeCell '"') = (cells.flatMap Utf8.Cell.bytes).flatMap Lexeme.escape := by
  induction cells with
  | nil => rfl
  | cons cell cells ih =>
    obtain ⟨hcell, hcells⟩ := List.forall_mem_cons.mp h
    rw [List.flatMap_cons, List.flatMap_cons, List.flatMap_append, escapeCell_shown hcell, ih hcells]

/-- Between quotation marks there are at least as many backslashes as in a source, and as many only if everything is
shown. -/
theorem count_backslash_escapeCell {cells : List Utf8.Cell} (hr : ∀ cell ∈ cells, Readable cell) :
    ((cells.flatMap Utf8.Cell.bytes).flatMap Lexeme.escape).count 92 ≤ (cells.flatMap (escapeCell '"')).count 92 ∧
      ((cells.flatMap (escapeCell '"')).count 92 =
        ((cells.flatMap Utf8.Cell.bytes).flatMap Lexeme.escape).count 92 →
        ∀ cell ∈ cells, Shown cell) := by
  induction cells with
  | nil => exact ⟨Nat.le_refl _, by simp⟩
  | cons cell cells ih =>
    obtain ⟨hcell, hcells⟩ := List.forall_mem_cons.mp hr
    obtain ⟨hle, heq⟩ := ih hcells
    rw [List.flatMap_cons, List.flatMap_cons, List.flatMap_append, List.count_append, List.count_append]
    by_cases hs : Shown cell
    · rw [escapeCell_shown hs]
      exact ⟨by omega, fun h => List.forall_mem_cons.mpr ⟨hs, heq (by omega)⟩⟩
    · obtain ⟨hzero, hpos⟩ := escapeCell_not_shown hcell hs
      exact ⟨by omega, fun h => absurd h (by omega)⟩

theorem count_quote_escapeCell {cells : List Utf8.Cell} (hr : ∀ cell ∈ cells, Readable cell) :
    (cells.flatMap (escapeCell '"')).count 34 ≤ (cells.flatMap Utf8.Cell.bytes).count 34 := by
  induction cells with
  | nil => exact Nat.le_refl _
  | cons cell cells ih =>
    obtain ⟨hcell, hcells⟩ := List.forall_mem_cons.mp hr
    rw [List.flatMap_cons, List.flatMap_cons, List.count_append, List.count_append]
    exact Nat.add_le_add (escapeCell_marks hcell).2 (ih hcells)

theorem readable_cells (s : Bytes) : ∀ cell ∈ Utf8.cells s, Readable cell := fun _ => readable_of_mem

theorem inside_shown {s : Bytes} (h : ∀ cell ∈ Utf8.cells s, Shown cell) : inside s = s.flatMap Lexeme.escape := by
  rw [inside, flatMap_escapeCell_shown h, Utf8.flatMap_bytes_cells]

theorem count_backslash_inside (s : Bytes) : (s.flatMap Lexeme.escape).count 92 ≤ (inside s).count 92 ∧
    ((inside s).count 92 = (s.flatMap Lexeme.escape).count 92 → ∀ cell ∈ Utf8.cells s, Shown cell) := by
  have h := count_backslash_escapeCell (readable_cells s)
  rwa [Utf8.flatMap_bytes_cells] at h

theorem count_quote_inside (s : Bytes) : (inside s).count 34 ≤ s.count 34 := by
  have h := count_quote_escapeCell (readable_cells s)
  rwa [Utf8.flatMap_bytes_cells] at h

theorem mem_inside {s : Bytes} {b : UInt8} (h : b ∈ inside s) : b ∉ [9, 10, 13] := by
  obtain ⟨cell, hcell, hb⟩ := List.mem_flatMap.mp h
  exact (escapeCell_marks (readable_of_mem hcell)).1 b hb

theorem exists_encodeAll_escapeCell {cell : Utf8.Cell} (h : Readable cell) :
    ∃ cs, escapeCell '"' cell = Utf8.encodeAll cs := by
  rcases escapeCell_cases h with ⟨c, -, -, -, -, he⟩ | ⟨l, hl, n, he, -, -⟩
  · exact ⟨[c], by simp [he]⟩
  · have hletters : ∀ l ∈ letters, l.toNat < 128 := by simp [letters]
    have hdigits := mem_hexWith hexDigit (P := fun b => b.toNat < 128) (by decide) (digitsBehind l) n
    rw [he]
    exact Utf8.exists_encodeAll_ascii
      (List.forall_mem_cons.mpr ⟨by decide, List.forall_mem_cons.mpr ⟨hletters l hl, hdigits⟩⟩)

theorem exists_encodeAll_inside (s : Bytes) : ∃ cs, inside s = Utf8.encodeAll cs := by
  have hall {cells : List Utf8.Cell} (h : ∀ cell ∈ cells, Readable cell) :
      ∃ cs, cells.flatMap (escapeCell '"') = Utf8.encodeAll cs := by
    induction cells with
    | nil => exact ⟨[], rfl⟩
    | cons cell cells ih =>
      obtain ⟨hcell, hcells⟩ := List.forall_mem_cons.mp h
      obtain ⟨cs, hcs⟩ := exists_encodeAll_escapeCell hcell
      obtain ⟨ds, hds⟩ := ih hcells
      exact ⟨cs ++ ds, by rw [List.flatMap_cons, hcs, hds, Utf8.encodeAll_append]⟩
  exact hall (readable_cells s)

/-- A quoted text that is composed begins and ends with a quotation mark, and it has as many of each inert character
as before. -/
theorem compose_quote (s : Bytes) : ∃ w, Canonical.compose (quote s) = 34 :: (w ++ [34]) ∧
    ∀ k : UInt8, k.toNat ∈ Canonical.inert → w.count k = (inside s).count k := by
  obtain ⟨cs, hcs⟩ := exists_encodeAll_inside s
  have hmark : String.utf8EncodeChar '"' = [34] := rfl
  have hquote : quote s = Utf8.encodeAll ('"' :: cs ++ ['"']) := by
    rw [quote_eq, hcs, Utf8.encodeAll_append, Utf8.encodeAll_cons, hmark]
    rfl
  obtain ⟨w, hw⟩ := Canonical.compose_inert (c := '"') (by decide) cs
  refine ⟨w, ?_, fun k hk => ?_⟩
  · rw [hquote, Canonical.compose_append _ (Canonical.added_ascii (by decide)) [], hw]
    rfl
  · have hcount := Canonical.count_compose hk ('"' :: cs)
    rw [hw, Utf8.encodeAll_cons, hmark, ← hcs] at hcount
    exact Nat.add_right_cancel ((List.count_cons ..).symm.trans (hcount.trans List.count_cons))

end Text.Quoted

/-! ## Tokens -/

namespace Cursor

theorem nextToken_cons {c : Cursor} {b : UInt8} {rest : Bytes} (hc : c.rest = b :: rest)
    (h : Lexeme.gapStep (b :: rest) = 0) : c.nextToken.1.kind = (Lexeme.read b rest).kind ∧
      c.nextToken.1.literal = (Lexeme.read b rest).literal ∧
      c.nextToken.2.rest = (b :: rest).drop (Lexeme.read b rest).width := by
  have hgap : Lexeme.gap c.rest = 0 := by
    rw [hc]
    exact Lexeme.gap_blanks (g := []) (by simp) h
  have hrest : c.skipGap.rest = b :: rest := by rw [skipGap, hgap, advance, hc]
  unfold nextToken
  simp only [hrest, rest_advance, and_self]

theorem tokensOnto_two {c : Cursor} {t eof : Token} (h : (c.tokensOnto []).1 = [t, eof]) (heof : eof.kind = .eof) :
    c.nextToken.1 = t ∧ c.nextToken.2.nextToken.1.kind = .eof := by
  rw [tokensOnto] at h
  split at h
  · cases h
  rw [tokensOnto] at h
  split at h
  · next hk =>
    cases h
    exact ⟨rfl, hk⟩
  · next hk =>
    obtain ⟨tokens, heq, -⟩ :=
      tokensOnto_increasing [c.nextToken.2.nextToken.1, c.nextToken.1] c.nextToken.2.nextToken.2
    rw [heq] at h
    cases h
    exact absurd heof hk

end Cursor

theorem tokenize_two {source : Bytes} {t eof : Token} (h : tokenize source = [t, eof]) (heof : eof.kind = .eof)
    {b : UInt8} {rest : Bytes} (hc : Text.Canonical.compose source = b :: rest)
    (hgap : Lexeme.gapStep (b :: rest) = 0) :
    (Lexeme.read b rest).kind = t.kind ∧ (Lexeme.read b rest).literal = t.literal := by
  obtain ⟨ht, -⟩ := Cursor.tokensOnto_two h heof
  obtain ⟨hk, hl, -⟩ := Cursor.nextToken_cons (c := .ofSource source) hc hgap
  rw [ht] at hk hl
  exact ⟨hk.symm, hl.symm⟩

theorem tokenize_ne_two {source raw literal rest : Bytes} {b : UInt8} {k : Kind}
    (hc : Text.Canonical.compose source = raw ++ b :: rest) (hw : Lexeme.Written (b :: rest) k literal raw)
    (hk : k ≠ .illegal) (hgap : Lexeme.gapStep (b :: rest) = 0) {t eof : Token} (heof : eof.kind = .eof) :
    tokenize source ≠ [t, eof] := by
  intro h
  obtain ⟨-, hend⟩ := Cursor.tokensOnto_two h heof
  obtain ⟨-, -, hrest⟩ := Cursor.nextToken_written (c := .ofSource source) (g := []) hc (by simp) hw hk
  obtain ⟨hkind, -, -⟩ := Cursor.nextToken_cons hrest hgap
  exact Lexeme.read_kind_ne_eof b rest (hkind.symm.trans hend)

def Token.literal? (t : Token) : Option Literal :=
  match t.kind with
  | .int => (Numeral.readInt64 t.literal).map .int
  | .float => (Numeral.readBinary64 t.literal).map .float
  | .string => some (.str t.literal)
  | _ => none

theorem Token.kind_of_literal?_str {t : Token} {s : Bytes} (h : t.literal? = some (.str s)) :
    t.kind = .string ∧ t.literal = s := by
  unfold Token.literal? at h
  split at h
  · obtain ⟨v, -, hv⟩ := Option.map_eq_some_iff.mp h
    cases hv
  · obtain ⟨v, -, hv⟩ := Option.map_eq_some_iff.mp h
    cases hv
  · next hk =>
    cases h
    exact ⟨hk, rfl⟩
  · cases h

theorem TokenStream.number_done {start s : TokenStream} (t : Token) (value : Option Literal) (f : SyntaxFault)
    (lt : s.left < start.left) (l : Literal) :
    (∃ p next lt', number t value f s lt = .done (.literal p l) next lt') ↔ value = some l := by
  cases value with
  | none => simp [number, Reading.stuck]
  | some v =>
    simp only [number, Reading.done.injEq, Expr.literal.injEq, Option.some.injEq]
    constructor
    · rintro ⟨_, _, _, h, _⟩
      exact h.2
    · intro h
      exact ⟨_, _, lt, ⟨rfl, h⟩, rfl⟩

theorem Token.operand_literal {t eof : Token} (hk : t.kind ∈ [.int, .float, .string]) (l : Literal) :
    (∃ p next lt, TokenStream.operand (.ofTokens [t, eof]) = .done (.literal p l) next lt) ↔
    t.literal? = some l := by
  have hne : t.kind ≠ .eof := by
    rintro h
    rw [h] at hk
    exact absurd hk (by decide)
  obtain ⟨rest, hrest⟩ : ∃ rest, (TokenStream.ofTokens [t, eof]).rest = t :: rest :=
    ⟨[eof].takeWhile (·.kind != .eof), by simp [TokenStream.ofTokens, List.takeWhile_cons, hne]⟩
  rw [TokenStream.operand_eq hrest, Token.literal?]
  simp only [List.mem_cons, List.not_mem_nil, or_false] at hk
  rcases hk with hk | hk | hk
  · rw [hk]
    exact TokenStream.number_done ..
  · rw [hk]
    exact TokenStream.number_done ..
  · rw [hk]
    exact TokenStream.number_done t (some (.str t.literal)) .noExpression (TokenStream.left_advance_lt hrest) l

/-! ## Numbers -/

namespace Binary64

variable {x : Binary64}

/-- A number and its shortest decimal are on the same side of any number, unless it is the one nearest to that. -/
theorem shortest_lt_iff (h : x.word < infiniteWord) (hm : 0 < x.significand) {m n : Nat} (hn : 0 < n)
    (hself : nearest false m n = x → (x.shortest.value < (m : ℚ) / n ↔ x.value < (m : ℚ) / n)) :
    x.shortest.value < (m : ℚ) / n ↔ x.value < (m : ℚ) / n := by
  have hs := has_shortest h hm
  have hv := has_interval_value hm
  by_cases hr : x.interval.Has ((m : ℚ) / n)
  · exact hself ((nearest_iff false m hn x).mpr (isNearest_of_has h hm hr)).1
  constructor
  · intro hlt
    by_contra hge
    exact hr (hs.between hv hlt.le (not_lt.mp hge))
  · intro hlt
    by_contra hge
    exact hr (hv.between hs hlt.le (not_lt.mp hge))

theorem shortest_lt_million (h : x.word < infiniteWord) (hm : 0 < x.significand) :
    x.shortest.value < 1000000 ↔ x.value < 1000000 := by
  have hiff := shortest_lt_iff (m := 1000000) (n := 1) h hm (by decide) fun hx => by
    have hnear : nearest false 1000000 1 = ⟨0x412E848000000000⟩ := by decide +kernel
    have hshort : (⟨0x412E848000000000⟩ : Binary64).shortest = ⟨1, 6⟩ := by decide +kernel
    have hsig : (⟨0x412E848000000000⟩ : Binary64).significand = 8589934592000000 := by decide +kernel
    have hscale : (⟨0x412E848000000000⟩ : Binary64).scale = -33 := by decide +kernel
    rw [← hx, hnear, hshort, value, hsig, hscale, Decimal.value]
    norm_num
  simpa using hiff

theorem shortest_lt_tenth_thousandth (h : x.word < infiniteWord) (hm : 0 < x.significand) :
    x.shortest.value < 1 / 10000 ↔ x.value < 1 / 10000 := by
  have hiff := shortest_lt_iff (m := 1) (n := 10000) h hm (by decide) fun hx => by
    have hnear : nearest false 1 10000 = ⟨0x3F1A36E2EB1C432D⟩ := by decide +kernel
    have hshort : (⟨0x3F1A36E2EB1C432D⟩ : Binary64).shortest = ⟨1, -4⟩ := by decide +kernel
    have hsig : (⟨0x3F1A36E2EB1C432D⟩ : Binary64).significand = 7378697629483821 := by decide +kernel
    have hscale : (⟨0x3F1A36E2EB1C432D⟩ : Binary64).scale = -66 := by decide +kernel
    rw [← hx, hnear, hshort, value, hsig, hscale, Decimal.value]
    norm_num
  simpa using hiff

theorem plain_iff (h : x.word < infiniteWord) :
    (layout.plainFrom ≤ x.shortest.lead ∧ x.shortest.lead < layout.plainBelow) ↔
      x.significand = 0 ∨ 1 / 10000 ≤ x.value ∧ x.value < 1000000 := by
  rcases Nat.eq_zero_or_pos x.significand with hm | hm
  · have hlead : (⟨0, 0⟩ : Decimal).lead = 0 := by decide +kernel
    rw [shortest_of_word_eq_zero ((significand_eq_zero_iff h).mp hm), hlead]
    exact iff_of_true (by decide) (.inl hm)
  · obtain ⟨hle, hlt⟩ := Decimal.lead_bounds ((shortest_bounds h).2.1 hm)
    have hlow : (-4 : Int) ≤ x.shortest.lead ↔ 1 / 10000 ≤ x.shortest.value := by
      rw [show (1 : ℚ) / 10000 = 10 ^ (-4 : Int) by norm_num]
      constructor
      · exact fun h => (zpow_le_zpow_right₀ (by norm_num) h).trans hle
      · intro h
        have := (zpow_lt_zpow_iff_right₀ (by norm_num : (1 : ℚ) < 10)).mp (h.trans_lt hlt)
        omega
    have hhigh : x.shortest.lead < (6 : Int) ↔ x.shortest.value < 1000000 := by
      rw [show (1000000 : ℚ) = 10 ^ (6 : Int) by norm_num]
      constructor
      · exact fun h => hlt.trans_le (zpow_le_zpow_right₀ (by norm_num) h)
      · exact fun h => (zpow_lt_zpow_iff_right₀ (by norm_num : (1 : ℚ) < 10)).mp (hle.trans_lt h)
    have hvalue : 1 / 10000 ≤ x.shortest.value ↔ 1 / 10000 ≤ x.value := by
      rw [← not_lt, shortest_lt_tenth_thousandth h hm, not_lt]
    rw [show layout.plainFrom = -4 from rfl, show layout.plainBelow = 6 from rfl, hlow, hhigh, hvalue,
      shortest_lt_million h hm]
    exact (or_iff_right (Nat.pos_iff_ne_zero.mp hm)).symm

end Binary64

namespace Literal

/-- The text of the literal is read as one token, which stands for the literal. -/
def ReadsBack (l : Literal) : Prop :=
  ∃ t eof, tokenize l.render = [t, eof] ∧ t.kind ∈ [.int, .float, .string] ∧ eof.kind = .eof ∧
    ∃ p next lt, TokenStream.operand (.ofTokens [t, eof]) = .done (.literal p l) next lt

theorem readsBack_iff {l : Literal} :
    ReadsBack l ↔ ∃ t eof, tokenize l.render = [t, eof] ∧ eof.kind = .eof ∧ t.literal? = some l := by
  constructor
  · rintro ⟨t, eof, heq, hk, heof, hoperand⟩
    exact ⟨t, eof, heq, heof, (Token.operand_literal hk l).mp hoperand⟩
  · rintro ⟨t, eof, heq, heof, hl⟩
    have hk : t.kind ∈ [.int, .float, .string] := by
      unfold Token.literal? at hl
      split at hl
      · next h => simp [h]
      · next h => simp [h]
      · next h => simp [h]
      · cases hl
    exact ⟨t, eof, heq, hk, heof, (Token.operand_literal hk l).mpr hl⟩

theorem readsBack_of_regular {l : Literal} {k : Kind} (text : Bytes) (hr : Lexeme.Regular k text)
    (htext : l.render = Lexeme.spell k text) (hc : Text.Canonical.compose l.render = l.render)
    (hl : ∀ pos, (Token.mk k text pos).literal? = some l) : ReadsBack l := by
  have hspaced : Lexeme.Spaced [(k, text)] (Lexeme.spell k text ++ ([] ++ [])) :=
    .cons hr (by simp) (by simp) .nil
  have htokens := tokenize_spaced _ [] _ hspaced (by simp) (by simpa [htext] using hc)
  simp only [List.nil_append, List.append_nil, ← htext] at htokens
  obtain ⟨t, ts, heq, ht, hts⟩ := List.map_eq_cons_iff.mp htokens
  obtain ⟨eof, rfl, heof⟩ := List.map_eq_singleton_iff.mp hts
  refine readsBack_iff.mpr ⟨t, eof, heq, congrArg Prod.fst heof, ?_⟩
  have hlit := hl t.pos
  rwa [show Token.mk k text t.pos = t from by cases t; cases ht; rfl] at hlit

theorem lt_of_isNumeric {b : UInt8} (h : Binary64.isNumeric b = true) : b.toNat < 128 := by
  simp only [Binary64.isNumeric, Text.isDigit, Bool.or_eq_true, Bool.and_eq_true, decide_eq_true_eq, beq_iff_eq,
    UInt8.le_iff_toNat_le, ← UInt8.toNat_inj, UInt8.reduceToNat] at h
  omega

theorem readsBack_int {v : Int64} (h : 0 ≤ v.toInt) : ReadsBack (int v) := by
  obtain ⟨n, hr, -⟩ := render_int h
  have hdigits := Text.decimal_isDigit n
  refine readsBack_of_regular (k := .int) (Text.decimal n) (.int ?_ ?_) ?_ ?_ fun pos => ?_
  · exact List.ne_nil_of_length_pos (Text.length_decimal_pos n)
  · exact fun b hb => Lexeme.isDigit_iff.mp (hdigits b hb)
  · rw [hr]
    rfl
  · rw [hr]
    exact Text.Canonical.compose_ascii fun b hb => lt_of_isNumeric (Binary64.isNumeric_of_isDigit (hdigits b hb))
  · rw [← hr]
    exact congrArg (Option.map int) (Terminal.readInt64_integer h)

section
variable {x : Binary64}

theorem written_digits {whole frac : Bytes} (hw : ∀ b ∈ whole, Text.isDigit b = true) (hne : whole ≠ [])
    (hf : ∀ b ∈ frac, Text.isDigit b = true) (rest : Bytes) : ∃ k, k ≠ .illegal ∧
      Lexeme.Written (101 :: rest) k (whole ++ Binary64.withPoint frac) (whole ++ Binary64.withPoint frac) := by
  have hnot : ∀ x ∈ (101 :: rest).head?, ¬ Lexeme.Digit x := by
    intro x hx
    cases hx
    decide
  have hw' : ∀ b ∈ whole, Lexeme.Digit b := fun b hb => Lexeme.isDigit_iff.mp (hw b hb)
  by_cases hfrac : frac = []
  · subst hfrac
    rw [show Binary64.withPoint [] = [] from rfl, List.append_nil]
    refine ⟨.int, by decide, .int hne hw' hnot fun x rest h => ?_⟩
    cases h
  · rw [Binary64.withPoint, if_neg (by simpa using hfrac)]
    exact ⟨.float, by decide, .float hne hw' hfrac (fun b hb => Lexeme.isDigit_iff.mp (hf b hb)) hnot⟩

theorem readsBack_float_iff (h : x.word < Binary64.infiniteWord) : ReadsBack (float x) ↔
    Binary64.layout.plainFrom ≤ x.shortest.lead ∧ x.shortest.lead < Binary64.layout.plainBelow := by
  obtain ⟨whole, frac, tail, e, hp, -, hpoint, hplain⟩ := Binary64.parts_renderFloat h
  have hc : Text.Canonical.compose (renderFloat x) = renderFloat x :=
    Text.Canonical.compose_ascii fun b hb => lt_of_isNumeric (Binary64.isNumeric_renderFloat h b hb)
  rw [← hplain]
  constructor
  · intro hback
    obtain ⟨t, eof, heq, heof, -⟩ := readsBack_iff.mp hback
    rcases hp.ends with ⟨htail, -⟩ | ⟨htail, -⟩
    · exact htail
    · obtain ⟨k, hk, hw⟩ := written_digits hp.digits hp.ne_nil hp.places (tail.drop 1)
      rw [htail, Numeral.exponentText, List.drop_one, List.tail_cons] at hw
      refine absurd heq (tokenize_ne_two ?_ hw hk (Lexeme.gapStep_opening (.inl rfl) _) heof)
      rw [render, hc, hp.eq, htail, Numeral.exponentText]
  · intro htail
    have hfrac := hpoint htail
    have htext : renderFloat x = whole ++ 46 :: frac := by
      rw [hp.eq, htail, Binary64.withPoint, if_neg (by simpa using hfrac), List.append_nil]
    refine readsBack_of_regular (k := .float) (renderFloat x) ?_ rfl hc fun pos => ?_
    · rw [htext]
      exact .float hp.ne_nil (fun b hb => Lexeme.isDigit_iff.mp (hp.digits b hb)) hfrac
        fun b hb => Lexeme.isDigit_iff.mp (hp.places b hb)
    · exact congrArg (Option.map float) (Binary64.readBinary64_renderFloat h)

end

theorem readsBack_str_iff (s : Bytes) : ReadsBack (str s) ↔
    (∀ cell ∈ Utf8.cells s, Text.Quoted.Shown cell) ∧
    Text.Canonical.compose (Text.Quoted.quote s) = Text.Quoted.quote s := by
  constructor
  · intro hback
    obtain ⟨t, eof, heq, heof, hl⟩ := readsBack_iff.mp hback
    obtain ⟨hkind, hliteral⟩ := Token.kind_of_literal?_str hl
    obtain ⟨w, hc, hcount⟩ := Text.Quoted.compose_quote s
    have hgap := Lexeme.gapStep_opening (.inr rfl) (w ++ [34])
    obtain ⟨hk, hs⟩ := tokenize_two heq heof hc hgap
    rw [hkind] at hk
    rw [hliteral] at hs
    have hcontent := Lexeme.content_of_read hgap hk hs (hcount 34 (by decide) ▸ Text.Quoted.count_quote_inside s)
    -- the numbers of backslashes leave no room for other escapes
    obtain ⟨hle, hescaped⟩ := Lexeme.count_backslash_content hcontent fun b hb hmem => by
      have hinert : ∀ b ∈ ([9, 10, 13] : Bytes), b.toNat ∈ Text.Canonical.inert := by simp [Text.Canonical.inert]
      have hpos := List.count_pos_iff.mpr hb
      rw [hcount b (hinert b hmem)] at hpos
      exact Text.Quoted.mem_inside (List.count_pos_iff.mp hpos) hmem
    obtain ⟨hle', hshown⟩ := Text.Quoted.count_backslash_inside s
    have hsame := hcount 92 (by decide)
    have hall := hshown (by omega)
    refine ⟨hall, ?_⟩
    rw [hc, hescaped (by omega), Text.Quoted.quote_eq, Text.Quoted.inside_shown hall]
  · rintro ⟨hshown, hc⟩
    refine readsBack_of_regular (k := .string) s .string ?_ hc fun pos => rfl
    rw [render, Text.Quoted.quote_eq, Text.Quoted.inside_shown hshown]
    rfl

def Plain : Literal → Prop
  | int _ => True
  | float x => x.significand = 0 ∨ 1 / 10000 ≤ x.value ∧ x.value < 1000000
  | str s => (∀ cell ∈ Utf8.cells s, Text.Quoted.Shown cell) ∧
      Text.Canonical.compose (Text.Quoted.quote s) = Text.Quoted.quote s
  | unmarked _ => False

/-- The literals of a source that are read back from their text. -/
theorem readsBack_iff_plain (l : Literal) (h : l.Sourced) : ReadsBack l ↔ Plain l := by
  cases l with
  | int v => exact iff_of_true (readsBack_int h) trivial
  | float x =>
    have hword := Binary64.word_lt_of_isPlain h
    exact (readsBack_float_iff hword).trans (Binary64.plain_iff hword)
  | str s => exact readsBack_str_iff s
  | unmarked s => exact absurd h id

/-- A bell is quoted by a letter that a source does not know, a line feed by one that it knows. -/
theorem readsBack_iff_plain_bell : (str [7]).Sourced ∧ ¬ ReadsBack (str [7]) ∧ ReadsBack (str [10]) := by
  have hbell : Text.isPrintable (Char.ofNat 7) = false := by decide +kernel
  refine ⟨trivial, fun h => ?_, (readsBack_iff_plain (str [10]) trivial).mpr ⟨?_, by decide +kernel⟩⟩
  · obtain ⟨hall, -⟩ := (readsBack_iff_plain (str [7]) trivial).mp h
    obtain ⟨c, hc, hshown⟩ := hall (.scalar (Char.ofNat 7)) (by decide +kernel)
    cases hc
    rw [hbell] at hshown
    exact absurd hshown (by decide)
  · intro cell hcell
    have hcells : Utf8.cells [10] = [.scalar '\n'] := by decide +kernel
    rw [hcells, List.mem_singleton] at hcell
    exact ⟨_, hcell, .inr (by decide)⟩

end Literal

end RegCode
