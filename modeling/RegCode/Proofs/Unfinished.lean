import RegCode.Proofs.Entry
import RegCode.Proofs.ErrorOrder

/-!
# Sources that end too soon

A source fails to parse only because it ends if it has errors and all of them are at its end. Once an error is at
the end, so are those behind it; whether a source ends too soon is therefore told by its first error. The prompt
looks at the last one, and takes it for one at the end if it has no text and its offset is at least the length of
what was typed. For a source that is composed these are the errors at the end. In others the end may be in front of
what was typed, and an empty string, which has no text either, may be behind it.
-/

namespace RegCode

def AtEnd (source : Bytes) (e : SyntaxError) : Prop := ∃ eof ∈ tokenize source, eof.kind = .eof ∧ e.pos = eof.pos

def AtEmptyString (source : Bytes) (e : SyntaxError) : Prop :=
  ∃ t ∈ tokenize source, t.kind = .string ∧ t.literal = [] ∧ e.pos = t.pos

/-- The source fails to parse only because it ends. -/
def EndsTooSoon (source : Bytes) : Prop :=
  (parseSource source).errors ≠ [] ∧ ∀ e ∈ (parseSource source).errors, AtEnd source e

def typedLength (source : Bytes) : Nat := (Text.trimEnd (fun b => b == 32 || b == 9 || b == 10) source).length

def LastBehindTyped (source : Bytes) : Prop :=
  ∃ last ∈ (parseSource source).errors.getLast?, (AtEnd source last ∨ AtEmptyString source last) ∧
    typedLength source ≤ last.pos.offset

section
variable {source text : Bytes} {t : Token} {e : SyntaxError}

/-! ## Where errors are -/

theorem Lexeme.Written.of_literal_nil {after literal raw : Bytes} {k : Kind} (h : Written after k literal raw)
    (hl : literal = []) : k = .string ∧ ∃ w, raw = 34 :: (w ++ [34]) := by
  cases h with
  | string => exact ⟨rfl, _, rfl⟩
  | word => cases hl
  | int hne => exact absurd hl hne
  | float => simp at hl
  | sign hk => exact absurd hl (Lexeme.signs_apart _ hk).1
  | character => exact absurd (List.append_eq_nil_iff.mp hl).1 (by decide +kernel)
  | stray => exact absurd (List.append_eq_nil_iff.mp hl).1 (by decide +kernel)
  | unterminated => exact absurd hl (by decide +kernel)

theorem Token.ReadIn.of_literal_nil (h : t.ReadIn text) (hl : t.literal = []) :
    t.kind = .string ∧ ∃ front w after, text = front ++ 34 :: w ++ 34 :: after ∧ t.pos.offset = front.length := by
  obtain ⟨front, b, rest, rfl, hgap, rfl⟩ := h
  obtain ⟨raw, after, htext, hwritten, -⟩ := Lexeme.read_written hgap
  obtain ⟨hk, w, rfl⟩ := hwritten.of_literal_nil hl
  exact ⟨hk, front, w, after, by simp [htext], rfl⟩

theorem AtEnd.offset (h : AtEnd source e) : e.pos.offset = (Text.Canonical.compose source).length := by
  obtain ⟨eof, hmem, hk, hpos⟩ := h
  obtain ⟨front, eof', heq, hall, -⟩ := tokenize_readIn source
  rw [heq, List.mem_append, List.mem_singleton] at hmem
  rcases hmem with hmem | rfl
  · exact absurd hk (hall eof hmem).kind_ne
  · rw [hpos, (tokenize_stop heq).2]

theorem error_at_end_or_token (he : e ∈ (parseSource source).errors) :
    (AtEnd source e ∧ e.lexeme = [] ∧ e.fault ≠ .badTarget) ∨
    ∃ t ∈ tokenize source, t.ReadIn (Text.Canonical.compose source) ∧ e.pos = t.pos ∧ e.lexeme = t.literal := by
  obtain ⟨front, eof, heq, hall, hk, -⟩ := tokenize_readIn source
  obtain ⟨s, ms, hn, herr⟩ := parse_noted (tokenize source)
  rw [parseSource, herr] at he
  obtain ⟨m, hm, rfl⟩ := List.mem_map.mp he
  obtain ⟨-, hrest, f, hf⟩ := hn.located m hm
  have htarget := hn.targets m hm
  rw [heq, TokenStream.ofTokens_cons (fun t ht => (hall t ht).kind_ne) hk] at hrest hf
  cases hr : m.rest with
  | nil =>
    rw [hr] at hf
    refine .inl ⟨⟨eof, by simp [heq], hk, by rw [hf]; rfl⟩, by rw [hf]; exact if_pos hk, fun hfault => ?_⟩
    obtain ⟨⟨-, op, tail, hop, -⟩, -⟩ := htarget hfault
    rw [hr] at hop
    cases hop
  | cons t tail =>
    rw [hr] at hf hrest
    have ht : t ∈ front := hrest.subset (by simp)
    exact .inr ⟨t, by simp [heq, ht], hall t ht, by rw [hf]; rfl, by rw [hf]; exact if_neg (hall t ht).kind_ne⟩

theorem atEnd_iff (he : e ∈ (parseSource source).errors) :
    AtEnd source e ↔ (Text.Canonical.compose source).length ≤ e.pos.offset := by
  refine ⟨fun h => Int.le_of_eq h.offset.symm, fun hle => ?_⟩
  rcases error_at_end_or_token he with ⟨h, -⟩ | ⟨t, -, hread, hpos, -⟩
  · exact h
  · have := hread.offset_lt
    rw [hpos] at hle
    omega

theorem AtEnd.lexeme_fault (h : AtEnd source e) (he : e ∈ (parseSource source).errors) :
    e.lexeme = [] ∧ e.fault ≠ .badTarget := by
  rcases error_at_end_or_token he with ⟨-, h⟩ | ⟨t, -, hread, hpos, -⟩
  · exact h
  · have := hread.offset_lt
    rw [← hpos, h.offset] at this
    exact absurd this (Int.lt_irrefl _)

theorem endsTooSoon_iff : EndsTooSoon source ↔ ∃ first ∈ (parseSource source).errors.head?, AtEnd source first := by
  have hordered : OrderedButNested _ (parseSource source).errors := parse_ordered (tokenize_increasing source)
  unfold EndsTooSoon
  constructor
  · rintro ⟨hne, hall⟩
    exact ⟨_, List.head?_eq_some_head hne, hall _ (List.head_mem hne)⟩
  · rintro ⟨first, hfirst, hend⟩
    obtain ⟨rest, heq⟩ := List.head?_eq_some_iff.mp hfirst
    refine ⟨by simp [heq], fun e he => ?_⟩
    obtain rfl | hrest := List.mem_cons.mp (heq ▸ he)
    · exact hend
    · -- no error that changes places is at the end
      have happart := hordered.apart
      rw [heq] at happart
      rcases (List.pairwise_cons.mp happart).1 e hrest with hle | ⟨hbad, -⟩
      · rw [hend.offset] at hle
        exact (atEnd_iff he).mpr hle
      · exact absurd hbad (hend.lexeme_fault (List.mem_of_head? hfirst)).2

/-! ## What the prompt takes for the end -/

theorem error_lexeme_nil_iff (he : e ∈ (parseSource source).errors) :
    e.lexeme = [] ↔ AtEnd source e ∨ AtEmptyString source e := by
  constructor
  · intro hnil
    rcases error_at_end_or_token he with ⟨hend, -⟩ | ⟨t, ht, hread, hpos, hlex⟩
    · exact .inl hend
    · have hl : t.literal = [] := hlex.symm.trans hnil
      exact .inr ⟨t, ht, (hread.of_literal_nil hl).1, hl, hpos⟩
  · rintro (hend | ⟨u, hu, -, hl, hupos⟩)
    · exact (hend.lexeme_fault he).1
    · rcases error_at_end_or_token he with ⟨-, hlex, -⟩ | ⟨t, ht, -, hpos, hlex⟩
      · exact hlex
      · rw [hlex, (tokenize_increasing source).eq_of_pos ht hu (hpos.symm.trans hupos), hl]

theorem incomplete_iff_lastBehindTyped : Command.incomplete source = true ↔ LastBehindTyped source := by
  unfold Command.incomplete LastBehindTyped
  cases hl : (parseSource source).errors.getLast? with
  | none => simp
  | some e => simp [← error_lexeme_nil_iff (List.mem_of_getLast? hl), typedLength]

theorem Text.lt_length_trimEnd {drop : UInt8 → Bool} {front after : Bytes} {b : UInt8} (hb : drop b = false) :
    front.length < (trimEnd drop (front ++ b :: after)).length := by
  rw [trimEnd, List.length_reverse, List.reverse_append, List.reverse_cons, List.append_assoc]
  rw [List.dropWhile_append]
  split
  · simp [hb]
  · simp
    omega

theorem AtEmptyString.lt_typedLength (h : AtEmptyString source e) (hc : Text.Canonical.compose source = source) :
    e.pos.offset < typedLength source := by
  obtain ⟨t, ht, hk, hl, hpos⟩ := h
  obtain ⟨front, eof, heq, hall, heof, -⟩ := tokenize_readIn source
  rw [heq, List.mem_append, List.mem_singleton] at ht
  rcases ht with ht | rfl
  · obtain ⟨-, front, w, after, htext, hoffset⟩ := (hall t ht).of_literal_nil hl
    have hlt : (front ++ 34 :: w).length < typedLength source := by
      rw [typedLength, ← hc, htext]
      exact Text.lt_length_trimEnd rfl
    rw [List.length_append] at hlt
    rw [hpos, hoffset]
    omega
  · rw [heof] at hk
    cases hk

theorem lastBehindTyped_iff (hc : Text.Canonical.compose source = source) :
    LastBehindTyped source ↔ ∃ last ∈ (parseSource source).errors.getLast?, AtEnd source last := by
  unfold LastBehindTyped
  constructor
  · rintro ⟨last, hlast, hend | hempty, hle⟩
    · exact ⟨last, hlast, hend⟩
    · have := hempty.lt_typedLength hc
      omega
  · rintro ⟨last, hlast, hend⟩
    refine ⟨last, hlast, .inl hend, ?_⟩
    rw [hend.offset, hc]
    exact Int.ofNat_le.mpr (Text.length_trimEnd_le ..)

theorem EndsTooSoon.lastBehindTyped_iff (h : EndsTooSoon source) :
    LastBehindTyped source ↔ typedLength source ≤ (Text.Canonical.compose source).length := by
  obtain ⟨hne, hall⟩ := h
  have hend := hall _ (List.getLast_mem hne)
  unfold LastBehindTyped
  rw [List.getLast?_eq_some_getLast hne]
  simp [hend, hend.offset]

end

/-- The prompt asks for more exactly if the last error is behind what was typed, at the end or at an empty string.
This is right exactly if a source that ends too soon is not longer than its composed form, and no other has such an
error. Of composed sources it is right exactly for those whose first error is at the end if their last one is. -/
theorem incomplete_exact_iff (source : Bytes) :
    (EndsTooSoon source ↔ ∃ first ∈ (parseSource source).errors.head?, AtEnd source first) ∧
    (Command.incomplete source = true ↔ LastBehindTyped source) ∧
    ((Command.incomplete source = true ↔ EndsTooSoon source) ↔
      (EndsTooSoon source → typedLength source ≤ (Text.Canonical.compose source).length) ∧
      (¬ EndsTooSoon source → ¬ LastBehindTyped source)) ∧
    (Text.Canonical.compose source = source → ((Command.incomplete source = true ↔ EndsTooSoon source) ↔
      ((∃ last ∈ (parseSource source).errors.getLast?, AtEnd source last) →
        ∃ first ∈ (parseSource source).errors.head?, AtEnd source first))) := by
  refine ⟨endsTooSoon_iff, incomplete_iff_lastBehindTyped, ?_, fun hc => ?_⟩
  · rw [incomplete_iff_lastBehindTyped]
    by_cases h : EndsTooSoon source
    · simp [h, h.lastBehindTyped_iff]
    · simp [h]
  · rw [incomplete_iff_lastBehindTyped, ← endsTooSoon_iff, ← lastBehindTyped_iff hc]
    refine ⟨Iff.mp, fun h => ⟨h, fun hsoon => ?_⟩⟩
    rw [hsoon.lastBehindTyped_iff, hc]
    exact Text.length_trimEnd_le ..

/-- A statement without a value, and a declaration that ends too soon. -/
def brokenThenOpen : Bytes := txt "print ; var x ="

theorem brokenThenOpen_asked_more : Text.Canonical.compose brokenThenOpen = brokenThenOpen ∧
    Command.incomplete brokenThenOpen = true ∧ ¬ EndsTooSoon brokenThenOpen ∧
    ∃ last ∈ (parseSource brokenThenOpen).errors.getLast?, AtEnd brokenThenOpen last := by
  have hc : Text.Canonical.compose brokenThenOpen = brokenThenOpen := by decide +kernel
  have hasked : Command.incomplete brokenThenOpen = true := by decide +kernel
  have hoffset : (parseSource brokenThenOpen).errors.head?.map (·.pos.offset) = some 6 := by decide +kernel
  obtain ⟨hfirst, -, -, hexact⟩ := incomplete_exact_iff brokenThenOpen
  have hnot : ¬ EndsTooSoon brokenThenOpen := by
    rw [hfirst]
    rintro ⟨first, hmem, hend⟩
    rw [Option.mem_def.mp hmem, Option.map_some, hend.offset, hc] at hoffset
    exact absurd hoffset (by decide +kernel)
  refine ⟨hc, hasked, hnot, Classical.byContradiction fun hno => hnot ?_⟩
  exact ((hexact hc).mpr fun hlast => absurd hlast hno).mp hasked

end RegCode
