import Mathlib.Data.List.Infix
import Mathlib.Data.List.TakeWhile
import RegCode.Proofs.Entry
import RegCode.Proofs.Scalar

/-!
# The lexical grammar

A text is its tokens and the gaps between them, and nothing is lost or read twice. `Gap` and `Written` say how a gap
and a token are written in front of a given text, so that each of them ends where it has to: a comment at its first
end, a string at its first closing quote, a word, a number or an operator as late as it can. Every token read is
written so, which is `read_written`, and every gap skipped is one, which is `gap_spec`.
-/

namespace RegCode

namespace Lexeme

/-! ## The alphabet -/

def Blank (b : UInt8) : Prop := b ∈ [32, 9, 13, 10]

def Digit (b : UInt8) : Prop := 48 ≤ b ∧ b ≤ 57

def Letter (b : UInt8) : Prop := 97 ≤ b ∧ b ≤ 122 ∨ 65 ≤ b ∧ b ≤ 90 ∨ b = 95

def WordByte (b : UInt8) : Prop := Letter b ∨ Digit b

instance : DecidablePred Blank := fun b => inferInstanceAs (Decidable (b ∈ [32, 9, 13, 10]))

instance : DecidablePred Digit := fun b => inferInstanceAs (Decidable (48 ≤ b ∧ b ≤ 57))

instance : DecidablePred Letter :=
  fun b => inferInstanceAs (Decidable (97 ≤ b ∧ b ≤ 122 ∨ 65 ≤ b ∧ b ≤ 90 ∨ b = 95))

instance : DecidablePred WordByte := fun b => inferInstanceAs (Decidable (Letter b ∨ Digit b))

def reserved : List (Bytes × Kind) :=
  [(txt "fn", .kwFn), (txt "function", .kwFn), (txt "var", .kwVar), (txt "print", .kwPrint), (txt "if", .kwIf),
   (txt "else", .kwElse), (txt "while", .kwWhile), (txt "return", .kwReturn)]

def signs : List (Bytes × Kind) :=
  [(txt "=", .assign), (txt "+", .plus), (txt "-", .minus), (txt "*", .star), (txt "/", .slash), (txt "!", .bang),
   (txt "==", .equal), (txt "!=", .notEqual), (txt "<", .less), (txt "<=", .lessEqual), (txt ">", .greater),
   (txt ">=", .greaterEqual), (txt ",", .comma), (txt ";", .semicolon), (txt "(", .lparen), (txt ")", .rparen),
   (txt "\x7b", .lbrace), (txt "\x7d", .rbrace)]

/-- A word is of its own kind if it is reserved, and a name if it is not. -/
def WordKind (w : Bytes) (k : Kind) : Prop := (w, k) ∈ reserved ∨ k = .ident ∧ ∀ k', (w, k') ∉ reserved

/-- The bytes that a backslash and the byte behind it stand for. -/
inductive Escape : UInt8 → Bytes → Prop where
  | quote : Escape 34 [34]
  | backslash : Escape 92 [92]
  | lineFeed : Escape 110 [10]
  | carriageReturn : Escape 114 [13]
  | tab : Escape 116 [9]
  | none {b : UInt8} : b ∉ [34, 92, 110, 114, 116] → Escape b [92, b]

/-! ## Gaps and tokens -/

/-- Blanks and comments in front of the text `after`. A block comment that is not closed goes to the end. -/
inductive Gap (after : Bytes) : Bytes → Prop where
  | nil : Gap after []
  | blank {b : UInt8} {g : Bytes} : Blank b → Gap after g → Gap after (b :: g)
  | line {c g : Bytes} : 10 ∉ c → (∀ b ∈ (g ++ after).head?, b = 10) → Gap after g →
      Gap after (47 :: 47 :: (c ++ g))
  | block {c g : Bytes} : ¬ [42, 47] <:+: c ++ [42] → Gap after g → Gap after (47 :: 42 :: (c ++ 42 :: 47 :: g))
  | openBlock {c : Bytes} : after = [] → ¬ [42, 47] <:+: c → Gap after (47 :: 42 :: c)

/-- What stands between the quotes of a string, and the bytes it means. -/
inductive Content : Bytes → Bytes → Prop where
  | nil : Content [] []
  | plain {b : UInt8} {w s : Bytes} : b ≠ 34 → b ≠ 92 → Content w s → Content (b :: w) (b :: s)
  | escape {b : UInt8} {e w s : Bytes} : Escape b e → Content w s → Content (92 :: b :: w) (e ++ s)

def Closed (text : Bytes) : Prop := ∃ w s after, Content w s ∧ text = w ++ 34 :: after

def Opens (b : UInt8) : Prop := WordByte b ∨ b = 34 ∨ ∃ p ∈ signs, p.1.head? = some b

/-- A token of a kind and with a literal, as it is written in front of the text `after`. -/
inductive Written (after : Bytes) : Kind → Bytes → Bytes → Prop where
  | word {b : UInt8} {w : Bytes} {k : Kind} : Letter b → (∀ x ∈ w, WordByte x) → (∀ x ∈ after.head?, ¬ WordByte x) →
      WordKind (b :: w) k → Written after k (b :: w) (b :: w)
  | int {ds : Bytes} : ds ≠ [] → (∀ d ∈ ds, Digit d) → (∀ x ∈ after.head?, ¬ Digit x) →
      (∀ x rest, after = 46 :: x :: rest → ¬ Digit x) → Written after .int ds ds
  | float {ds es : Bytes} : ds ≠ [] → (∀ d ∈ ds, Digit d) → es ≠ [] → (∀ d ∈ es, Digit d) →
      (∀ x ∈ after.head?, ¬ Digit x) → Written after .float (ds ++ 46 :: es) (ds ++ 46 :: es)
  | sign {w : Bytes} {k : Kind} : (w, k) ∈ signs → (k ∈ [.assign, .bang, .less, .greater] → after.head? ≠ some 61) →
      (k = .slash → after.head? ≠ some 47 ∧ after.head? ≠ some 42) → Written after k w w
  | string {w s : Bytes} : Content w s → Written after .string s (34 :: (w ++ [34]))
  | character {c : Char} : (∀ b ∈ (String.utf8EncodeChar c).head?, ¬ Opens b ∧ ¬ Blank b) →
      Written after .illegal (txt "unexpected character " ++ Text.Quoted.quoteChar c) (String.utf8EncodeChar c)
  | stray {b : UInt8} : (∀ c, ¬ String.utf8EncodeChar c <+: b :: after) →
      Written after .illegal (txt "unexpected byte 0x" ++ Text.hexUpper 2 b.toNat) [b]
  | unterminated {w : Bytes} : after = [] → ¬ Closed w →
      Written after .illegal (txt "unterminated string") (34 :: w)

/-! ## What the reader goes by -/

section
variable {b : UInt8} {w e : Bytes} {k : Kind}

theorem isBlank_iff : isBlank b = true ↔ Blank b := by
  simp [isBlank, Blank, or_assoc]

theorem isDigit_iff : Text.isDigit b = true ↔ Digit b := by
  simp [Text.isDigit, Digit]

theorem isLetter_iff : isLetter b = true ↔ Letter b := by
  simp [isLetter, Letter, or_assoc]

theorem isWordByte_iff : isWordByte b = true ↔ WordByte b := by
  rw [isWordByte, Bool.or_eq_true, isLetter_iff, isDigit_iff, WordByte]

theorem isBlank_eq_false_iff : isBlank b = false ↔ ¬ Blank b := by
  rw [← isBlank_iff, Bool.not_eq_true]

theorem isDigit_eq_false_iff : Text.isDigit b = false ↔ ¬ Digit b := by
  rw [← isDigit_iff, Bool.not_eq_true]

theorem isWordByte_eq_false_iff : isWordByte b = false ↔ ¬ WordByte b := by
  rw [← isWordByte_iff, Bool.not_eq_true]

theorem escape_unescape (b : UInt8) : Escape b (unescape b) := by
  by_cases h : b ∈ [34, 92, 110, 114, 116]
  · simp only [List.mem_cons, List.not_mem_nil, or_false] at h
    rcases h with rfl | rfl | rfl | rfl | rfl
    · exact .quote
    · exact .backslash
    · exact .lineFeed
    · exact .carriageReturn
    · exact .tab
  · have heq : unescape b = [92, b] := by
      simp only [List.mem_cons, List.not_mem_nil, or_false, not_or] at h
      simp [unescape, h]
    rw [heq]
    exact .none h

theorem Escape.eq_unescape (h : Escape b e) : e = unescape b := by
  cases h with
  | none h =>
    simp only [List.mem_cons, List.not_mem_nil, or_false, not_or] at h
    simp [unescape, h]
  | _ => rfl

theorem reserved_spec : ∀ p ∈ reserved, Kind.ofWord p.1 = p.2 ∧ p.2 ≠ .string ∧ p.1 ≠ [] ∧
    (∀ b ∈ p.1.head?, isLetter b = true) ∧ ∀ x ∈ p.1, isWordByte x = true := by
  decide +kernel

theorem ofWord_eq_ident (h : ∀ k, (w, k) ∉ reserved) : Kind.ofWord w = .ident := by
  have hnone : Kind.keywords.lookup w = none := by
    rw [List.lookup_eq_none_iff]
    intro p hp
    rw [bne_iff_ne]
    rintro rfl
    exact h p.2 hp
  rw [Kind.ofWord, hnone]
  rfl

theorem wordKind_iff : WordKind w k ↔ Kind.ofWord w = k := by
  constructor
  · rintro (h | ⟨rfl, h⟩)
    · exact (reserved_spec _ h).1
    · exact ofWord_eq_ident h
  · rintro rfl
    by_cases h : ∃ k, (w, k) ∈ reserved
    · obtain ⟨k, hk⟩ := h
      rw [(reserved_spec _ hk).1]
      exact .inl hk
    · exact .inr ⟨ofWord_eq_ident (not_exists.mp h), not_exists.mp h⟩

end

/-! ## Runs of bytes -/

section
variable {p : UInt8 → Bool} {w after : Bytes}

theorem exists_run (p : UInt8 → Bool) (text : Bytes) :
    ∃ w after, text = w ++ after ∧ (∀ x ∈ w, p x = true) ∧ ∀ x ∈ after.head?, p x = false := by
  refine ⟨text.takeWhile p, text.dropWhile p, List.takeWhile_append_dropWhile.symm, ?_, ?_⟩
  · intro x hx
    exact List.mem_takeWhile_imp hx
  · intro x hx
    have hstop := List.head?_dropWhile_not p text
    rw [Option.mem_def.mp hx] at hstop
    exact hstop

theorem takeWhile_run (hw : ∀ x ∈ w, p x = true) (ha : ∀ x ∈ after.head?, p x = false) :
    (w ++ after).takeWhile p = w := by
  rw [List.takeWhile_append_of_pos hw]
  cases after with
  | nil => simp
  | cons b after => simp [ha b rfl]

theorem dropWhile_run (hw : ∀ x ∈ w, p x = true) (ha : ∀ x ∈ after.head?, p x = false) :
    (w ++ after).dropWhile p = after := by
  rw [List.dropWhile_append_of_pos hw]
  cases after with
  | nil => rfl
  | cons b after => simp [ha b rfl]

end

/-! ## Gaps -/

theorem blockCommentRest_cases (n : Nat) (text : Bytes) :
    (∃ c rest, text = c ++ 42 :: 47 :: rest ∧ ¬ [42, 47] <:+: c ++ [42] ∧
      blockCommentRest n text = n + c.length + 2) ∨
    (¬ [42, 47] <:+: text ∧ blockCommentRest n text = n + text.length) := by
  fun_induction blockCommentRest n text with
  | case1 n rest => exact .inl ⟨[], rest, rfl, by decide, rfl⟩
  | case2 n b rest hb ih =>
    -- no end begins at `b`, so one of the rest is the first of all
    have hfree (t : Bytes) (ht : t <+: rest) : ¬ [42, 47] <+: b :: t := by
      rintro ⟨u, hu⟩
      obtain ⟨v, hv⟩ := ht
      cases hu
      exact hb (u ++ v) rfl hv.symm
    rcases ih with ⟨c, rest', rfl, hc, hn⟩ | ⟨hc, hn⟩
    · refine .inl ⟨b :: c, rest', rfl, ?_, ?_⟩
      · rw [List.cons_append, List.infix_cons_iff, not_or]
        exact ⟨hfree _ ⟨47 :: rest', by simp⟩, hc⟩
      · rw [hn, List.length_cons]
        omega
    · refine .inr ⟨?_, ?_⟩
      · rw [List.infix_cons_iff, not_or]
        exact ⟨hfree rest (List.prefix_refl rest), hc⟩
      · rw [hn, List.length_cons]
        omega
  | case3 n => exact .inr ⟨by decide, rfl⟩

theorem gapStep_of_no_comment {b : UInt8} {rest : Bytes}
    (h : b = 47 → rest.head? ≠ some 47 ∧ rest.head? ≠ some 42) :
    gapStep (b :: rest) = ((b :: rest).takeWhile isBlank).length := by
  rw [gapStep]
  · rintro tail heq
    cases heq
    exact (h rfl).1 rfl
  · rintro tail heq
    cases heq
    exact (h rfl).2 rfl

theorem gapStep_eq_zero_iff {b : UInt8} {rest : Bytes} : gapStep (b :: rest) = 0 ↔
    isBlank b = false ∧ (b = 47 → rest.head? ≠ some 47 ∧ rest.head? ≠ some 42) := by
  constructor
  · intro h
    have hcomment : b = 47 → rest.head? ≠ some 47 ∧ rest.head? ≠ some 42 := by
      rintro rfl
      constructor <;> intro hr <;> obtain ⟨tail, rfl⟩ := List.head?_eq_some_iff.mp hr
      · simp [gapStep] at h
      · rw [gapStep] at h
        rcases blockCommentRest_cases 2 tail with ⟨_, _, -, -, hn⟩ | ⟨-, hn⟩ <;> omega
    rw [gapStep_of_no_comment hcomment] at h
    refine ⟨?_, hcomment⟩
    by_contra hb
    simp [hb] at h
  · rintro ⟨hb, hcomment⟩
    rw [gapStep_of_no_comment hcomment, List.takeWhile_cons, hb]
    rfl

theorem Gap.blanks {after g bs : Bytes} (h : ∀ b ∈ bs, isBlank b = true) (hg : Gap after g) :
    Gap after (bs ++ g) := by
  induction bs with
  | nil => exact hg
  | cons b bs ih =>
    rw [List.forall_mem_cons] at h
    exact .blank (isBlank_iff.mp h.1) (ih h.2)

theorem Gap.step {text g after : Bytes} (h0 : 0 ∉ text) (hrest : text.drop (gapStep text) = g ++ after)
    (hg : Gap after g) :
    ∃ g', text = g' ++ after ∧ Gap after g' ∧ g'.length = gapStep text + g.length := by
  revert hrest
  fun_cases gapStep text with
  | case1 rest =>
    obtain ⟨c, tail, rfl, hc, ht⟩ := exists_run inLineComment rest
    rw [takeWhile_run hc ht, Nat.add_comm]
    intro hrest
    have htail : tail = g ++ after := by simpa using hrest
    refine ⟨47 :: 47 :: (c ++ g), by simp [htail], .line ?_ ?_ hg, by simp; omega⟩
    · intro h
      exact absurd (hc 10 h) (by decide)
    · intro b hb
      rw [← htail] at hb
      have hne : b ≠ 0 := fun h => h0 (by simp [← h, List.mem_of_mem_head? hb])
      simpa [inLineComment, hne] using ht b hb
  | case2 rest =>
    intro hrest
    rcases blockCommentRest_cases 2 rest with ⟨c, tail, rfl, hc, hn⟩ | ⟨hc, hn⟩
    · have htail : tail = g ++ after := by
        rw [← hrest, hn, Nat.add_right_comm, Nat.add_comm]
        simp
      refine ⟨47 :: 42 :: (c ++ 42 :: 47 :: g), by simp [htail], .block hc hg, ?_⟩
      simp [hn]
      omega
    · have hnil : g ++ after = [] := by
        rw [← hrest, hn]
        exact List.drop_of_length_le (by simp; omega)
      obtain ⟨rfl, rfl⟩ := List.append_eq_nil_iff.mp hnil
      exact ⟨47 :: 42 :: rest, by simp, .openBlock rfl hc, by simp [hn]; omega⟩
  | case3 =>
    obtain ⟨bs, tail, rfl, hbs, ht⟩ := exists_run isBlank text
    rw [takeWhile_run hbs ht]
    intro hrest
    have htail : tail = g ++ after := by simpa using hrest
    exact ⟨bs ++ g, by simp [htail], hg.blanks hbs, by simp⟩

theorem gapFrom_spec (n : Nat) (text : Bytes) (h0 : 0 ∉ text) :
    ∃ g, text = g ++ (gapFrom n text).2 ∧ Gap (gapFrom n text).2 g ∧ (gapFrom n text).1 = n + g.length ∧
      gapStep (gapFrom n text).2 = 0 := by
  fun_induction gapFrom n text with
  | case1 n text h => exact ⟨[], rfl, .nil, rfl, h⟩
  | case2 n text h ih =>
    obtain ⟨g, htext, hg, hn, hstep⟩ := ih fun hmem => h0 (List.mem_of_mem_drop hmem)
    obtain ⟨g', htext', hg', hl⟩ := hg.step h0 htext
    exact ⟨g', htext', hg', by omega, hstep⟩

theorem gap_spec (text : Bytes) (h0 : 0 ∉ text) :
    ∃ g after, text = g ++ after ∧ Gap after g ∧ gap text = g.length ∧ gapStep after = 0 := by
  obtain ⟨g, htext, hg, hn, hstep⟩ := gapFrom_spec 0 text h0
  exact ⟨g, _, htext, hg, by rw [gap, hn, Nat.zero_add], hstep⟩

/-! ## Strings -/

theorem Closed.escape {text : Bytes} (b : UInt8) (h : Closed text) : Closed (92 :: b :: text) := by
  obtain ⟨w, s, after, hw, rfl⟩ := h
  exact ⟨92 :: b :: w, _, after, .escape (escape_unescape b) hw, rfl⟩

theorem Closed.plain {b : UInt8} {text : Bytes} (h34 : b ≠ 34) (h92 : b ≠ 92) (h : Closed text) :
    Closed (b :: text) := by
  obtain ⟨w, s, after, hw, rfl⟩ := h
  exact ⟨b :: w, b :: s, after, .plain h34 h92 hw, rfl⟩

theorem stringRest_plain {b : UInt8} (h34 : b ≠ 34) (h92 : b ≠ 92) (acc : Bytes) (width : Nat) (text : Bytes) :
    stringRest acc width (b :: text) = stringRest (b :: acc) (width + 1) text := by
  rw [stringRest]
  · exact h34
  · intro h
    exact absurd h h92
  · intro _ _ h
    exact absurd h h92

theorem stringRest_content {w s : Bytes} (h : Content w s) (acc : Bytes) (width : Nat) (after : Bytes) :
    stringRest acc width (w ++ 34 :: after) = ⟨.string, acc.reverse ++ s, width + w.length + 1⟩ := by
  induction h generalizing acc width with
  | nil => simp [stringRest]
  | plain h34 h92 _ ih =>
    rw [List.cons_append, stringRest_plain h34 h92, ih]
    simp only [List.reverse_cons, List.append_assoc, List.singleton_append, List.length_cons]
    congr 1
    omega
  | escape he _ ih =>
    rw [List.cons_append, List.cons_append, stringRest, ih, he.eq_unescape]
    simp only [List.reverse_append, List.reverse_reverse, List.append_assoc, List.length_cons]
    congr 1
    omega

/-- A string that nothing closes goes to the end of the text, and one byte beyond behind a backslash. -/
theorem stringRest_open {text : Bytes} (h : ¬ Closed text) (acc : Bytes) (width : Nat) :
    ∃ beyond, stringRest acc width text = unterminated (width + text.length + beyond) := by
  fun_induction stringRest acc width text with
  | case1 acc width => exact ⟨0, rfl⟩
  | case2 acc width after => exact absurd ⟨[], [], after, .nil, rfl⟩ h
  | case3 acc width => exact ⟨1, rfl⟩
  | case4 acc width b rest ih =>
    obtain ⟨k, heq⟩ := ih fun hc => h (hc.escape b)
    refine ⟨k, ?_⟩
    rw [heq, List.length_cons, List.length_cons]
    congr 1
    omega
  | case5 acc width b rest h34 hlast hmore ih =>
    have h92 : b ≠ 92 := by
      rintro rfl
      cases rest with
      | nil => exact hlast rfl rfl
      | cons x rest => exact hmore x rest rfl rfl
    obtain ⟨k, heq⟩ := ih fun hc => h (hc.plain h34 h92)
    refine ⟨k, ?_⟩
    rw [heq, List.length_cons]
    congr 1
    omega

/-! ## Words and numbers -/

section
variable {after : Bytes}

theorem word_run {w : Bytes} (hw : ∀ x ∈ w, isWordByte x = true) (ha : ∀ x ∈ after.head?, isWordByte x = false) :
    word (w ++ after) = ⟨Kind.ofWord w, w, w.length⟩ := by
  simp only [word, takeWhile_run hw ha]

theorem number_int {ds : Bytes} (hds : ∀ d ∈ ds, Text.isDigit d = true)
    (ha : ∀ x ∈ after.head?, Text.isDigit x = false)
    (hpoint : ∀ x rest, after = 46 :: x :: rest → Text.isDigit x = false) :
    number (ds ++ after) = ⟨.int, ds, ds.length⟩ := by
  unfold number
  rw [takeWhile_run hds ha, dropWhile_run hds ha]
  dsimp only
  split
  · rename_i d rest
    rw [hpoint d rest rfl]
    rfl
  · rfl

theorem number_float {ds es : Bytes} (hds : ∀ d ∈ ds, Text.isDigit d = true) (hne : es ≠ [])
    (hes : ∀ d ∈ es, Text.isDigit d = true) (ha : ∀ x ∈ after.head?, Text.isDigit x = false) :
    number (ds ++ 46 :: (es ++ after)) = ⟨.float, ds ++ 46 :: es, ds.length + 1 + es.length⟩ := by
  have hpoint : ∀ x ∈ (46 :: (es ++ after)).head?, Text.isDigit x = false := by
    intro x hx
    cases hx
    decide
  unfold number
  rw [takeWhile_run hds hpoint, dropWhile_run hds hpoint]
  cases es with
  | nil => exact absurd rfl hne
  | cons e es =>
    have htake := takeWhile_run hes ha
    simp only [List.cons_append] at htake ⊢
    rw [if_pos (hes e (.head es)), htake]

end

/-! ## Lexemes -/

/-- The text `text` starts with the lexeme `l`, and `after` is left behind it. -/
def Begins (text : Bytes) (l : Lexeme) : Prop :=
  ∃ raw after, text = raw ++ after ∧ Written after l.kind l.literal raw ∧ text.drop l.width = after

theorem Begins.of_written {text : Bytes} {l : Lexeme} (raw after : Bytes) (htext : text = raw ++ after)
    (h : Written after l.kind l.literal raw) (hw : l.width = raw.length) : Begins text l :=
  ⟨raw, after, htext, h, by rw [htext, hw, List.drop_left]⟩

theorem begins_word {b : UInt8} (h : isLetter b = true) (rest : Bytes) : Begins (b :: rest) (word (b :: rest)) := by
  obtain ⟨w, after, rfl, hw, ha⟩ := exists_run isWordByte rest
  have hall : ∀ x ∈ b :: w, isWordByte x = true := by
    rw [List.forall_mem_cons]
    exact ⟨by simp [isWordByte, h], hw⟩
  rw [← List.cons_append, word_run hall ha]
  exact .of_written (b :: w) after rfl (.word (isLetter_iff.mp h) (fun x hx => isWordByte_iff.mp (hw x hx))
    (fun x hx => isWordByte_eq_false_iff.mp (ha x hx)) (wordKind_iff.mpr rfl)) rfl

theorem run_ne_nil {p : UInt8 → Bool} {b : UInt8} {rest w after : Bytes} (h : b :: rest = w ++ after)
    (hb : p b = true) (ha : ∀ x ∈ after.head?, p x = false) : w ≠ [] := by
  rintro rfl
  have := ha b (by rw [← List.nil_append after, ← h]; rfl)
  simp [hb] at this

theorem begins_number {b : UInt8} (h : Text.isDigit b = true) (rest : Bytes) :
    Begins (b :: rest) (number (b :: rest)) := by
  obtain ⟨ds, after, heq, hds, ha⟩ := exists_run Text.isDigit (b :: rest)
  have hne := run_ne_nil heq h ha
  rw [heq]
  by_cases hpoint : ∃ x tail, after = 46 :: x :: tail ∧ Text.isDigit x = true
  · obtain ⟨x, tail, rfl, hx⟩ := hpoint
    obtain ⟨es, after, hes, hall, hafter⟩ := exists_run Text.isDigit (x :: tail)
    have hes' := run_ne_nil hes hx hafter
    rw [hes, number_float hds hes' hall hafter]
    refine .of_written (ds ++ 46 :: es) after (by simp) (.float hne ?_ hes' ?_ ?_) (by simp; omega)
    · exact fun d hd => isDigit_iff.mp (hds d hd)
    · exact fun d hd => isDigit_iff.mp (hall d hd)
    · exact fun x hx => isDigit_eq_false_iff.mp (hafter x hx)
  · have hint : ∀ x tail, after = 46 :: x :: tail → Text.isDigit x = false := by
      intro x tail hafter
      by_contra hx
      exact hpoint ⟨x, tail, hafter, Bool.not_eq_false _ ▸ hx⟩
    rw [number_int hds ha hint]
    refine .of_written ds after rfl (.int hne ?_ ?_ ?_) rfl
    · exact fun d hd => isDigit_iff.mp (hds d hd)
    · exact fun x hx => isDigit_eq_false_iff.mp (ha x hx)
    · exact fun x rest hx => isDigit_eq_false_iff.mp (hint x rest hx)

theorem begins_string (rest : Bytes) : Begins (34 :: rest) (stringRest [] 1 rest) := by
  by_cases hc : Closed rest
  · obtain ⟨w, s, after, hw, rfl⟩ := hc
    rw [stringRest_content hw]
    exact .of_written (34 :: (w ++ [34])) after (by simp) (.string hw) (by simp; omega)
  · obtain ⟨k, heq⟩ := stringRest_open hc [] 1
    rw [heq]
    refine ⟨34 :: rest, [], by simp, .unterminated rfl hc, List.drop_of_length_le ?_⟩
    simp only [unterminated, List.length_cons]
    omega

theorem eq_ofNat_of_toNat {b : UInt8} {n : Nat} (h : b.toNat = n) : b = UInt8.ofNat n := by
  rw [← h, UInt8.ofNat_toNat]

theorem single?_spec {b : UInt8} {k : Kind} (h : single? b = some k) :
    ([b], k) ∈ signs ∧ k ∉ [.assign, .bang, .less, .greater] := by
  unfold single? at h
  split at h <;> cases h
  all_goals
    rename_i hb
    cases eq_ofNat_of_toNat hb
    decide +kernel

theorem extensible?_spec {b : UInt8} {one two : Kind} (h : extensible? b = some (one, two)) :
    ([b], one) ∈ signs ∧ one ≠ .slash ∧ ([b, 61], two) ∈ signs ∧
      two ∉ [.assign, .bang, .less, .greater, .slash] := by
  unfold extensible? at h
  split at h <;> cases h
  all_goals
    rename_i hb
    cases eq_ofNat_of_toNat hb
    decide +kernel

theorem signs_head : ∀ p ∈ signs, ∀ b ∈ p.1.head?, (extensible? b).isSome ∨ (single? b).isSome := by
  decide +kernel

theorem signs_apart : ∀ p ∈ signs, p.1 ≠ [] ∧
    ∀ b ∈ p.1.head?, isWordByte b = false ∧ b ≠ 34 ∧ isBlank b = false ∧ (b = 47 → p = ([47], .slash)) := by
  decide +kernel

theorem not_opens {b : UInt8} (hx : extensible? b = none) (hs : single? b = none) (h34 : b ≠ 34)
    (hl : ¬ isLetter b = true) (hd : ¬ Text.isDigit b = true) : ¬ Opens b := by
  rintro ((h | h) | h | ⟨p, hp, h⟩)
  · exact hl (isLetter_iff.mpr h)
  · exact hd (isDigit_iff.mpr h)
  · exact h34 h
  · have := signs_head p hp b h
    simp [hx, hs] at this

theorem begins_unexpected {b : UInt8} {rest : Bytes} (hb : ¬ Opens b) (hblank : isBlank b = false) :
    Begins (b :: rest) (unexpected b (b :: rest)) := by
  unfold unexpected
  cases hd : Utf8.decode (b :: rest) with
  | none => exact .of_written [b] rest rfl (.stray (Utf8.decode_eq_none_iff.mp hd)) rfl
  | some p =>
    obtain ⟨⟨after, hafter⟩, hl⟩ := Utf8.decode_eq_some_iff.mp hd
    refine .of_written _ after hafter.symm (.character ?_) hl.symm
    intro x hx
    have hhead : (String.utf8EncodeChar p.1 ++ after).head? = some x := by
      rw [List.head?_append, Option.mem_def.mp hx]
      rfl
    rw [hafter] at hhead
    cases hhead
    exact ⟨hb, isBlank_eq_false_iff.mp hblank⟩

theorem read_written {b : UInt8} {rest : Bytes} (h : gapStep (b :: rest) = 0) :
    Begins (b :: rest) (read b rest) := by
  obtain ⟨hblank, hcomment⟩ := gapStep_eq_zero_iff.mp h
  fun_cases read b rest with
  | case1 one two hx tail =>
    obtain ⟨-, -, htwo, hno⟩ := extensible?_spec hx
    refine .of_written [b, 61] tail rfl (.sign htwo ?_ ?_) rfl
    · intro hk
      exact absurd (List.mem_append_left [Kind.slash] hk) hno
    · rintro rfl
      exact absurd (by decide) hno
  | case2 _ one two hx hnext =>
    obtain ⟨hone, hslash, -⟩ := extensible?_spec hx
    refine .of_written [b] rest rfl (.sign hone ?_ ?_) rfl
    · intro _ hr
      obtain ⟨tail, rfl⟩ := List.head?_eq_some_iff.mp hr
      exact hnext tail rfl
    · intro hk
      exact absurd hk hslash
  | case3 _ hx k hs =>
    obtain ⟨hk, hno⟩ := single?_spec hs
    refine .of_written [b] rest rfl (.sign hk ?_ ?_) rfl
    · intro hmem
      exact absurd hmem hno
    · rintro rfl
      have hslash : ∀ p ∈ signs, p.2 = .slash → p.1 = [47] := by decide +kernel
      cases hslash _ hk rfl
      exact hcomment rfl
  | case4 =>
    rename_i h34
    cases h34
    exact begins_string rest
  | case5 _ _ _ _ hl => exact begins_word hl rest
  | case6 _ _ _ _ _ hd => exact begins_number hd rest
  | case7 _ hx hs h34 hl hd => exact begins_unexpected (not_opens hx hs h34 hl hd) hblank

end Lexeme

/-! ## Whole texts -/

/-- A text from an offset on as gaps and tokens in turn, a gap first and last. -/
inductive Covered : Int → Bytes → List Token → Prop where
  | done {n : Int} {g : Bytes} : Lexeme.Gap [] g → Covered n g []
  | token {n : Int} {g raw after : Bytes} {t : Token} {ts : List Token} : Lexeme.Gap (raw ++ after) g →
      t.pos.offset = n + g.length → Lexeme.Written after t.kind t.literal raw →
      Covered (n + g.length + raw.length) after ts → Covered n (g ++ (raw ++ after)) (t :: ts)

namespace Cursor

theorem rest_skipGap {c : Cursor} {g after : Bytes} (htext : c.rest = g ++ after)
    (hg : Lexeme.gap c.rest = g.length) : c.skipGap.rest = after := by
  rw [skipGap, rest_advance, hg, htext, List.drop_left]

theorem nextToken_covers {c : Cursor} (h0 : 0 ∉ c.rest) (h : c.nextToken.1.kind ≠ .eof) :
    ∃ g raw after, c.rest = g ++ (raw ++ after) ∧ Lexeme.Gap (raw ++ after) g ∧
      c.nextToken.1.pos.offset = c.pos.offset + g.length ∧
      Lexeme.Written after c.nextToken.1.kind c.nextToken.1.literal raw ∧ c.nextToken.2.rest = after := by
  obtain ⟨g, front, htext, hg, hlen, hstep⟩ := Lexeme.gap_spec c.rest h0
  have hrest := rest_skipGap htext hlen
  have hstop : c.skipGap.stop = c.stop := stop_advance ..
  unfold nextToken at h ⊢
  cases front with
  | nil => simp [hrest] at h
  | cons b tail =>
    obtain ⟨raw, after, hfront, hw, hdrop⟩ := Lexeme.read_written hstep
    simp only [hrest]
    refine ⟨g, raw, after, hfront ▸ htext, hfront ▸ hg, ?_, hw, ?_⟩
    · simp only [stop, hrest, htext, List.length_append] at hstop
      omega
    · rw [rest_advance, hrest, hdrop]

theorem gap_of_nextToken_eof {c : Cursor} (h0 : 0 ∉ c.rest) (h : c.nextToken.1.kind = .eof) :
    Lexeme.Gap [] c.rest ∧ c.nextToken.1.literal = [] := by
  obtain ⟨g, front, htext, hg, hlen, -⟩ := Lexeme.gap_spec c.rest h0
  have hrest := rest_skipGap htext hlen
  unfold nextToken at h ⊢
  cases front with
  | nil =>
    rw [List.append_nil] at htext
    simp only [hrest]
    exact ⟨htext ▸ hg, trivial⟩
  | cons b tail =>
    simp only [hrest] at h
    exact absurd h (Lexeme.read_kind_ne_eof b tail)

/-- From any place on, the tokens cover the text, and the one that marks the end is behind it. -/
theorem tokensOnto_covered (acc : List Token) (c : Cursor) (h0 : 0 ∉ c.rest) :
    ∃ front eof, (c.tokensOnto acc).1 = acc.reverse ++ (front ++ [eof]) ∧ Covered c.pos.offset c.rest front ∧
      (∀ t ∈ front, t.kind ≠ .eof) ∧ eof.kind = .eof ∧ eof.literal = [] := by
  fun_induction tokensOnto acc c with
  | case1 acc c next h =>
    obtain ⟨hg, hl⟩ := gap_of_nextToken_eof h0 h
    exact ⟨[], next.1, by simp, .done hg, by simp, h, hl⟩
  | case2 acc c next h ih =>
    obtain ⟨g, raw, after, htext, hg, hpos, hw, hrest⟩ := nextToken_covers h0 h
    have hafter : 0 ∉ after := fun hmem => h0 (by simp [htext, hmem])
    obtain ⟨front, eof, heq, hc, hne, hk, hl⟩ := ih (hrest ▸ hafter)
    have hrest : next.2.rest = after := hrest
    have hstop : next.2.stop = c.stop := stop_nextToken c
    have hoffset : next.2.pos.offset = c.pos.offset + g.length + raw.length := by
      simp only [stop, hrest, htext, List.length_append] at hstop
      omega
    rw [hrest, hoffset] at hc
    refine ⟨next.1 :: front, eof, by simp [heq], ?_, ?_, hk, hl⟩
    · rw [htext]
      exact .token hg hpos hw hc
    · rw [List.forall_mem_cons]
      exact ⟨h, hne⟩

end Cursor

/-- The composed form of a source without a zero byte is the texts of its tokens in order, each at its offset, with
blanks and comments between them, and one token more marks its end. -/
theorem tokenize_covers (source : Bytes) (h : 0 ∉ Text.Canonical.compose source) :
    ∃ (front : List Token) (eof : Token), tokenize source = front ++ [eof] ∧
      Covered 0 (Text.Canonical.compose source) front ∧ (∀ t ∈ front, t.kind ≠ .eof) ∧
      eof.kind = .eof ∧ eof.literal = [] ∧ eof.pos.offset = (Text.Canonical.compose source).length := by
  obtain ⟨front, eof, heq, hc, hne, hk, hl⟩ := Cursor.tokensOnto_covered [] (.ofSource source) h
  exact ⟨front, eof, heq, hc, hne, hk, hl, (tokenize_stop heq).2⟩

/-- A text with both comments, an escaped quote, a stray byte and, behind a backslash, the end in a string. -/
def raggedText : Bytes := txt "if/*-**/a1<=2.5//é\n\"\\\"\\q\"" ++ 255 :: txt "\"é\\"

theorem raggedText_covered : 0 ∉ Text.Canonical.compose raggedText ∧
    Covered 0 raggedText (tokenize raggedText).dropLast := by
  have h0 : 0 ∉ Text.Canonical.compose raggedText := by decide +kernel
  have hc : Text.Canonical.compose raggedText = raggedText := by decide +kernel
  obtain ⟨front, eof, heq, hcov, -⟩ := tokenize_covers raggedText h0
  rw [hc] at hcov
  rw [heq, List.dropLast_concat]
  exact ⟨h0, hcov⟩

end RegCode
