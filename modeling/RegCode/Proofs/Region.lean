import RegCode.Proofs.Legible
import RegCode.Proofs.Positions
import RegCode.Proofs.Rendering

/-!
# Strings, comments and code

`Region.after` says where a text leaves off: in code, or inside a string or a comment. A text that leaves off in
code, behind a blank, is read to its end without a look at what follows. It begins with a blank, a comment or a
token, and behind that it is such a text again, which is `Between.cases`. Here a line comment must not hold a zero
byte, since it ends there when it is read.
-/

namespace RegCode

/-- What a place in a text is inside of. -/
inductive Region where
  | code
  | string
  | line
  | block
  deriving DecidableEq, Repr

/-- The region that a text leads to from another. -/
def Region.after : Region → Bytes → Region
  | region, [] => region
  | .code, 47 :: 47 :: rest => after .line rest
  | .code, 47 :: 42 :: rest => after .block rest
  | .code, 34 :: rest => after .string rest
  | .code, _ :: rest => after .code rest
  | .string, 34 :: rest => after .code rest
  | .string, 92 :: _ :: rest => after .string rest
  | .string, _ :: rest => after .string rest
  | .line, 10 :: rest => after .code rest
  | .line, _ :: rest => after .line rest
  | .block, 42 :: 47 :: rest => after .code rest
  | .block, _ :: rest => after .block rest

namespace Region

/-! ## Ends of regions -/

theorem after_code_cons {b : UInt8} {rest : Bytes} (h34 : b ≠ 34)
    (h47 : b = 47 → rest.head? ≠ some 47 ∧ rest.head? ≠ some 42) : after .code (b :: rest) = after .code rest := by
  rw [after]
  · rintro tail rfl rfl
    exact (h47 rfl).1 rfl
  · rintro tail rfl rfl
    exact (h47 rfl).2 rfl
  · exact h34

theorem after_code_append {w : Bytes} (hw : ∀ b ∈ w, b ≠ 34 ∧ b ≠ 47) (rest : Bytes) :
    after .code (w ++ rest) = after .code rest := by
  induction w with
  | nil => rfl
  | cons b w ih =>
    rw [List.forall_mem_cons] at hw
    rw [List.cons_append, after_code_cons hw.1.1 (fun h => absurd h hw.1.2), ih hw.2]

theorem after_line_append {c : Bytes} (hc : Text.newline ∉ c) (rest : Bytes) :
    after .line (c ++ rest) = after .line rest := by
  induction c with
  | nil => rfl
  | cons b c ih =>
    rw [List.mem_cons, not_or] at hc
    rw [List.cons_append, after, ih hc.2]
    exact Ne.symm hc.1

theorem after_string_append {w s : Bytes} (h : Lexeme.Content w s) (rest : Bytes) :
    after .string (w ++ rest) = after .string rest := by
  induction h with
  | nil => rfl
  | plain h34 h92 _ ih =>
    rw [List.cons_append, after, ih]
    · exact h34
    · intro _ _ h
      exact absurd h h92
  | escape _ _ ih => rw [List.cons_append, List.cons_append, after, ih]

theorem after_block_cons {b : UInt8} {rest : Bytes} (h : ¬ [42, 47] <+: b :: rest) :
    after .block (b :: rest) = after .block rest := by
  rw [after]
  rintro tail rfl rfl
  exact h ⟨tail, rfl⟩

end Region

theorem Utf8.encode_eq_singleton {c : Char} {b : UInt8} (h : b ∈ String.utf8EncodeChar c) (hb : b.toNat < 128) :
    String.utf8EncodeChar c = [b] := by
  have hc := toNat_of_mem_encode h hb
  rw [encode_eq, if_pos (by omega), hc, UInt8.ofNat_toNat]

namespace Lexeme

open Region

/-! ## Reading up to a blank -/

section
variable {s : UInt8} {u : Bytes} (hs : isBlank s = true) (x : Bytes)
include hs

theorem continued_blank (value more : Nat) :
    Utf8.continued value more (u ++ s :: x) = Utf8.continued value more (u ++ [s]) := by
  have hstop : Utf8.isContinuation s = false := by
    have hb : s = 32 ∨ s = 9 ∨ s = 13 ∨ s = 10 := by simpa [Blank] using isBlank_iff.mp hs
    rcases hb with rfl | rfl | rfl | rfl <;> decide
  induction u generalizing value more with
  | nil => cases more <;> simp [Utf8.continued, hstop]
  | cons b u ih =>
    cases more with
    | zero => rfl
    | succ more => simp only [List.cons_append, Utf8.continued, ih]

theorem decode_blank (b : UInt8) : Utf8.decode (b :: (u ++ s :: x)) = Utf8.decode (b :: (u ++ [s])) := by
  cases ha : Utf8.announced b with
  | none =>
    have hnone (rest : Bytes) : Utf8.decode (b :: rest) = none := by
      rewrite [Utf8.decode, ha]
      rfl
    rw [hnone, hnone]
  | some p => rw [Utf8.decode_cons ha, Utf8.decode_cons ha, continued_blank hs x]

omit hs in
theorem takeWhile_stop {p : UInt8 → Bool} (hp : p s = false) :
    (u ++ s :: x).takeWhile p = (u ++ [s]).takeWhile p := by
  simp [List.takeWhile_append, hp]

theorem word_blank : word (u ++ s :: x) = word (u ++ [s]) := by
  rw [word, word, takeWhile_stop x (isBlank_iff.mp hs).ends.1]

theorem number_blank : number (u ++ s :: x) = number (u ++ [s]) := by
  obtain ⟨-, hdigit, hmarks⟩ := (isBlank_iff.mp hs).ends
  have h46 : s ≠ 46 := fun h => hmarks (by simp [h])
  have hdrop (y : Bytes) : (u ++ s :: y).dropWhile Text.isDigit = u.dropWhile Text.isDigit ++ s :: y := by
    simp [List.dropWhile_append, hdigit]
  unfold number
  rw [takeWhile_stop x hdigit, hdrop x, hdrop []]
  -- a point and a digit behind it both stand in front of the blank
  generalize u.dropWhile Text.isDigit = v
  cases v with
  | nil => simp [h46]
  | cons b v =>
    by_cases hb : b = 46
    · subst hb
      cases v with
      | nil => simp [hdigit]
      | cons d v =>
        have hplaces := takeWhile_stop (u := d :: v) x hdigit
        simp only [List.cons_append] at hplaces ⊢
        rw [hplaces]
    · simp [hb]

/-- A token other than a string is read without a look beyond the next blank. -/
theorem read_blank {b : UInt8} (h34 : b ≠ 34) : read b (u ++ s :: x) = read b (u ++ [s]) := by
  have h61 : s ≠ 61 := fun h => (isBlank_iff.mp hs).ends.2.2 (by simp [h])
  have hword := word_blank hs x (u := b :: u)
  have hnumber := number_blank hs x (u := b :: u)
  unfold read
  rw [List.cons_append, List.cons_append] at hword hnumber
  rw [hword, hnumber, unexpected, unexpected, decode_blank hs x, if_neg h34, if_neg h34]
  cases u with
  | nil => simp [h61]
  | cons y u =>
    by_cases hy : y = 61
    · subst hy
      rfl
    · simp [hy]

end

/-! ## Ends between tokens -/

/-- The text is empty or ends in a blank outside of strings and comments, and none of its line comments holds a zero
byte. -/
structure Between (a : Bytes) : Prop where
  blank : ∀ s ∈ a.getLast?, isBlank s = true
  code : Region.after .code a = .code
  intact : ∀ front back, a = front ++ 0 :: back → Region.after .code front ≠ .line

/-- In front of `a`, the text `w` leaves the region alone. -/
def Transparent (w a : Bytes) : Prop :=
  ∀ t, t <+: a → t ≠ [] → Region.after .code (w ++ t) = Region.after .code t

theorem Between.drop {w a : Bytes} (h : Between (w ++ a)) (hw : Transparent w a) : Between a where
  blank := by
    intro s hs
    refine h.blank s ?_
    rw [List.getLast?_append, Option.mem_def.mp hs]
    rfl
  code := by
    cases a with
    | nil => rfl
    | cons b a => rw [← hw _ (List.prefix_refl _) (by simp), h.code]
  intact := by
    rintro front back rfl
    cases front with
    | nil => decide
    | cons b front =>
      rw [← hw _ ⟨0 :: back, rfl⟩ (by simp)]
      exact h.intact _ back (by simp)

theorem Between.exists_blank {b : UInt8} {rest : Bytes} (h : Between (b :: rest)) (hb : isBlank b = false) :
    ∃ u s, rest = u ++ [s] ∧ isBlank s = true := by
  rcases List.eq_nil_or_concat rest with rfl | ⟨u, s, rfl⟩
  · have := h.blank b rfl
    simp [hb] at this
  · exact ⟨u, s, by simp, h.blank s (by simp [List.getLast?_cons])⟩

theorem signs_marks : ∀ p ∈ signs, p = ([47], .slash) ∨ p.2 ≠ .slash ∧ ∀ b ∈ p.1, b ≠ 34 ∧ b ≠ 47 := by
  decide +kernel

theorem opens_marks : Opens 34 ∧ Opens 47 :=
  ⟨.inr (.inl rfl), .inr (.inr ⟨([47], .slash), by decide +kernel, rfl⟩)⟩

theorem WordByte.ne {b : UInt8} (h : WordByte b) : b ≠ 34 ∧ b ≠ 47 := by
  constructor <;> rintro rfl <;> exact absurd h (by decide)

theorem encode_ne {c : Char} (h : ∀ b ∈ (String.utf8EncodeChar c).head?, ¬ Opens b) :
    ∀ b ∈ String.utf8EncodeChar c, b ≠ 34 ∧ b ≠ 47 := by
  intro b hb
  have hclosed (hlt : b.toNat < 128) : ¬ Opens b := by
    refine h b ?_
    rw [Utf8.encode_eq_singleton hb hlt]
    rfl
  constructor <;> rintro rfl
  · exact hclosed (by decide) opens_marks.1
  · exact hclosed (by decide) opens_marks.2

theorem Written.transparent {k : Kind} {literal raw a : Bytes} (h : Written a k literal raw) :
    Transparent raw a := by
  intro t ht hne
  cases h with
  | word hb hw _ _ =>
    refine after_code_append ?_ t
    rw [List.forall_mem_cons]
    exact ⟨WordByte.ne (.inl hb), fun x hx => (hw x hx).ne⟩
  | int hne hds ha hpoint => exact after_code_append (fun x hx => WordByte.ne (.inr (hds x hx))) t
  | @float ds es hne hds hne' hes ha =>
    refine after_code_append ?_ t
    have hpoint : (46 : UInt8) ≠ 34 ∧ (46 : UInt8) ≠ 47 := by decide
    rw [List.forall_mem_append, List.forall_mem_cons]
    exact ⟨fun x hx => WordByte.ne (.inr (hds x hx)), hpoint, fun x hx => WordByte.ne (.inr (hes x hx))⟩
  | sign hmem hone hslash =>
    rcases signs_marks _ hmem with hk | ⟨-, hk⟩
    · cases hk
      have hhead : t.head? = a.head? := by
        obtain ⟨b, t, rfl⟩ := List.exists_cons_of_ne_nil hne
        obtain ⟨u, rfl⟩ := ht
        rfl
      rw [List.singleton_append]
      refine after_code_cons (by decide) fun _ => ?_
      rw [hhead]
      exact hslash rfl
    · exact after_code_append hk t
  | @string w s hw =>
    rw [List.cons_append, List.append_assoc, List.singleton_append, Region.after, after_string_append hw,
      Region.after]
  | character hc => exact after_code_append (encode_ne fun b hb => (hc b hb).1) t
  | @stray b hb =>
    refine after_code_append ?_ t
    rw [List.forall_mem_singleton]
    constructor <;> rintro rfl
    · exact hb '"' ⟨a, rfl⟩
    · exact hb '/' ⟨a, rfl⟩
  | unterminated ha =>
    rw [ha, List.prefix_nil] at ht
    exact absurd ht hne

/-! ## Gaps in front of more -/

theorem gapFrom_add (m n : Nat) (text : Bytes) :
    gapFrom (m + n) text = (m + (gapFrom n text).1, (gapFrom n text).2) := by
  fun_induction gapFrom n text with
  | case1 n text h => rw [gapFrom, if_pos h]
  | case2 n text h ih => rw [gapFrom, if_neg h, Nat.add_assoc, ih]

theorem gap_append {w t : Bytes} (hw : w ≠ []) (h : gapStep (w ++ t) = w.length) :
    gap (w ++ t) = w.length + gap t := by
  have hpos : w.length ≠ 0 := fun h0 => hw (List.eq_nil_of_length_eq_zero h0)
  rw [gap, gapFrom, h, if_neg hpos, List.drop_left, Nat.add_comm, gapFrom_add, gap]

theorem gap_blank {s : UInt8} (hs : isBlank s = true) (t : Bytes) : gap ([s] ++ t) = 1 + gap t := by
  have hstep {b : UInt8} (hb : isBlank b = true) (t : Bytes) :
      gapStep (b :: t) = 1 + (t.takeWhile isBlank).length := by
    rw [gapStep_of_no_comment, List.takeWhile_cons, if_pos hb, List.length_cons, Nat.add_comm]
    rintro rfl
    exact absurd hb (by decide)
  obtain ⟨w, after, rfl, hw, ha⟩ := exists_run isBlank t
  have hwhole := gap_append (w := s :: w) (t := after) (by simp) (by
    rw [List.cons_append, hstep hs, takeWhile_run hw ha, List.length_cons, Nat.add_comm])
  cases w with
  | nil => exact hwhole
  | cons b w =>
    have hrest := gap_append (w := b :: w) (t := after) (by simp) (by
      rw [List.forall_mem_cons] at hw
      rw [List.cons_append, hstep hw.1, takeWhile_run hw.2 ha, List.length_cons, Nat.add_comm])
    simp only [List.nil_append, List.cons_append, List.length_cons] at hwhole hrest ⊢
    omega

theorem gap_line {c t : Bytes} (hc : Text.newline ∉ c) (h0 : 0 ∉ c) (ht : ∀ b ∈ t.head?, inLineComment b = false) :
    gap (47 :: 47 :: c ++ t) = (47 :: 47 :: c).length + gap t := by
  have hinside : ∀ b ∈ c, inLineComment b = true := by
    intro b hb
    have hzero : b ≠ 0 := fun h => h0 (h ▸ hb)
    have hnewline : b ≠ Text.newline := fun h => hc (h ▸ hb)
    simpa [inLineComment, hzero, Text.newline] using hnewline
  refine gap_append (by simp) ?_
  rw [List.cons_append, List.cons_append, gapStep, takeWhile_run hinside ht, List.length_cons, List.length_cons]
  omega

theorem block_append {c : Bytes} (hc : ¬ [42, 47] <:+: c ++ [42]) (t : Bytes) :
    after .block (c ++ 42 :: 47 :: t) = after .code t ∧
    ∀ n, blockCommentRest n (c ++ 42 :: 47 :: t) = n + c.length + 2 := by
  induction c with
  | nil => exact ⟨rfl, fun n => rfl⟩
  | cons b c ih =>
    rw [List.cons_append, List.infix_cons_iff, not_or] at hc
    obtain ⟨hcode, hlen⟩ := ih hc.2
    have hfree : ¬ [42, 47] <+: b :: (c ++ 42 :: 47 :: t) := by
      intro h
      refine hc.1 ?_
      cases c with
      | nil => simp at h
      | cons x c => simpa [List.cons_prefix_cons] using h
    refine ⟨by rw [List.cons_append, after_block_cons hfree, hcode], fun n => ?_⟩
    rw [List.cons_append, blockCommentRest, hlen, List.length_cons]
    · omega
    · rintro tail rfl heq
      exact hfree ⟨tail, by rw [heq]; rfl⟩

theorem after_block_open {text : Bytes} (h : ¬ [42, 47] <:+: text) : after .block text = .block := by
  induction text with
  | nil => rfl
  | cons b text ih =>
    rw [List.infix_cons_iff, not_or] at h
    rw [after_block_cons h.1, ih h.2]

theorem gap_block {c : Bytes} (hc : ¬ [42, 47] <:+: c ++ [42]) (t : Bytes) :
    gap (47 :: 42 :: (c ++ [42, 47]) ++ t) = (47 :: 42 :: (c ++ [42, 47])).length + gap t := by
  refine gap_append (by simp) ?_
  have htext : 47 :: 42 :: (c ++ [42, 47]) ++ t = 47 :: 42 :: (c ++ 42 :: 47 :: t) := by simp
  rw [htext, gapStep, (block_append hc t).2]
  simp
  omega

theorem closed_of_after {text : Bytes} (h : after .string text = .code) : Closed text := by
  -- by the equations of `after`, of which those for strings are left
  generalize hr : Region.string = r at h
  fun_induction after r text with
  | case1 =>
    subst hr
    cases h
  | case6 rest => exact ⟨[], [], rest, .nil, rfl⟩
  | case7 b rest ih => exact (ih rfl h).escape b
  | case8 b rest h34 hescape ih =>
    refine (ih rfl h).plain h34 ?_
    rintro rfl
    cases rest with
    | nil => cases h
    | cons x rest => exact hescape x rest rfl rfl
  | _ => cases hr

/-! ## What a text that ends between tokens begins with -/

/-- The text `w` is skipped in front of all that begins with `a`. -/
def Skipped (w a : Bytes) : Prop := ∀ x, gap (w ++ (a ++ x)) = w.length + gap (a ++ x)

theorem Between.blank_skipped {b : UInt8} {rest : Bytes} (h : Between ([b] ++ rest)) (hb : isBlank b = true) :
    Between rest ∧ Skipped [b] rest := by
  refine ⟨h.drop fun t _ _ => after_code_append ?_ t, fun x => gap_blank hb (rest ++ x)⟩
  rw [List.forall_mem_singleton]
  constructor <;> rintro rfl <;> exact absurd hb (by decide)

theorem Between.line_skipped {rest : Bytes} (h : Between (47 :: 47 :: rest)) :
    ∃ c a, rest = c ++ a ∧ Between a ∧ Skipped (47 :: 47 :: c) a := by
  obtain ⟨c, a, rfl, hc, ha⟩ := exists_run (· ≠ Text.newline) rest
  have hc' : Text.newline ∉ c := fun hm => by simpa using hc _ hm
  cases a with
  | nil =>
    have hcode := h.code
    rw [after, after_line_append hc'] at hcode
    cases hcode
  | cons b a =>
    have hb : b = Text.newline := by simpa using ha b rfl
    subst hb
    have htransparent : Transparent (47 :: 47 :: c) (Text.newline :: a) := by
      intro t ht hne
      obtain ⟨x, t, rfl⟩ := List.exists_cons_of_ne_nil hne
      obtain ⟨rfl, -⟩ := List.cons_prefix_cons.mp ht
      rw [List.cons_append, List.cons_append, after, after_line_append hc']
      rfl
    have h0 : 0 ∉ c := by
      intro hm
      obtain ⟨c₁, c₂, rfl⟩ := List.append_of_mem hm
      refine h.intact (47 :: 47 :: c₁) (c₂ ++ Text.newline :: a) (by simp) ?_
      rw [after, ← List.append_nil c₁, after_line_append fun hm => hc' (List.mem_append_left _ hm)]
      rfl
    refine ⟨c, Text.newline :: a, rfl, Between.drop (w := 47 :: 47 :: c) h htransparent, fun x =>
      gap_line hc' h0 ?_⟩
    intro b hb
    cases hb
    rfl

theorem Between.block_skipped {rest : Bytes} (h : Between (47 :: 42 :: rest)) :
    ∃ c a, rest = c ++ a ∧ Between a ∧ Skipped (47 :: 42 :: c) a := by
  rcases blockCommentRest_cases 0 rest with ⟨c, a, rfl, hc, -⟩ | ⟨hopen, -⟩
  · refine ⟨c ++ [42, 47], a, by simp, Between.drop (w := 47 :: 42 :: (c ++ [42, 47])) (by simpa using h) ?_,
      fun x => gap_block hc (a ++ x)⟩
    intro t _ _
    have htext : 47 :: 42 :: (c ++ [42, 47]) ++ t = 47 :: 42 :: (c ++ 42 :: 47 :: t) := by simp
    rw [htext, after, (block_append hc t).1]
  · have hcode := h.code
    rw [after, after_block_open hopen] at hcode
    cases hcode

/-- The token at the front is read whatever follows the text. -/
theorem Between.read_append {b : UInt8} {rest : Bytes} (h : Between (b :: rest)) (hb : isBlank b = false)
    (x : Bytes) :
    read b (rest ++ x) = read b rest := by
  by_cases h34 : b = 34
  · subst h34
    obtain ⟨w, s, a, hw, rfl⟩ := closed_of_after h.code
    rw [read_quote, read_quote, List.append_assoc, List.cons_append, stringRest_content hw, stringRest_content hw]
  · obtain ⟨u, s, rfl, hs⟩ := h.exists_blank hb
    rw [List.append_assoc, List.singleton_append, read_blank hs x h34]

theorem Between.token {b : UInt8} {rest : Bytes} (h : Between (b :: rest)) (hstep : gapStep (b :: rest) = 0) :
    ∃ w a, b :: rest = w ++ a ∧ (read b rest).width = w.length ∧ Between a ∧
      ∀ x, gapStep (b :: (rest ++ x)) = 0 ∧ read b (rest ++ x) = read b rest := by
  obtain ⟨hb, hcomment⟩ := gapStep_eq_zero_iff.mp hstep
  obtain ⟨w, a, htext, hw, hdrop⟩ := read_written hstep
  refine ⟨w, a, htext, ?_, (htext ▸ h).drop hw.transparent, fun x => ⟨?_, h.read_append hb x⟩⟩
  · -- a string that is cut off ends in a backslash and not in a blank
    have hcut : ¬ CutOff (b :: rest) := by
      intro hcut
      have hlast : (b :: rest).getLast? = some 92 := CutOff.getLast? (k := 0) hcut
      exact absurd (h.blank 92 hlast) (by decide)
    have hle := (width_read b rest).2 hcut
    have hlen := congrArg List.length hdrop
    have hlen' := congrArg List.length htext
    rw [List.length_drop] at hlen
    rw [List.length_append] at hlen'
    rw [List.length_cons] at hlen hlen'
    omega
  · refine gapStep_eq_zero_iff.mpr ⟨hb, fun h47 => ?_⟩
    obtain ⟨u, s, rfl, -⟩ := h.exists_blank hb
    cases u with
    | nil => exact hcomment h47
    | cons y u => exact hcomment h47

/-- A text that ends between tokens begins with a blank or a comment, or with a token that does not depend on what
follows the text. -/
theorem Between.cases {b : UInt8} {rest : Bytes} (h : Between (b :: rest)) :
    ∃ w a, b :: rest = w ++ a ∧ w ≠ [] ∧ Between a ∧ (Skipped w a ∨ (read b rest).width = w.length ∧
      ∀ x, gapStep (b :: (rest ++ x)) = 0 ∧ read b (rest ++ x) = read b rest) := by
  by_cases hb : isBlank b = true
  · obtain ⟨hrest, hskip⟩ := Between.blank_skipped h hb
    exact ⟨[b], rest, rfl, by simp, hrest, .inl hskip⟩
  by_cases hline : b = 47 ∧ rest.head? = some 47
  · obtain ⟨rfl, hr⟩ := hline
    obtain ⟨rest, rfl⟩ := List.head?_eq_some_iff.mp hr
    obtain ⟨c, a, rfl, ha, hskip⟩ := h.line_skipped
    exact ⟨47 :: 47 :: c, a, rfl, by simp, ha, .inl hskip⟩
  by_cases hblock : b = 47 ∧ rest.head? = some 42
  · obtain ⟨rfl, hr⟩ := hblock
    obtain ⟨rest, rfl⟩ := List.head?_eq_some_iff.mp hr
    obtain ⟨c, a, rfl, ha, hskip⟩ := h.block_skipped
    exact ⟨47 :: 42 :: c, a, rfl, by simp, ha, .inl hskip⟩
  · have hstep : gapStep (b :: rest) = 0 :=
      gapStep_eq_zero_iff.mpr ⟨by simpa using hb, fun h47 =>
      ⟨fun hr => hline ⟨h47, hr⟩, fun hr => hblock ⟨h47, hr⟩⟩⟩
    obtain ⟨w, a, htext, hwidth, ha, hread⟩ := h.token hstep
    have hpos := width_read_pos b rest
    exact ⟨w, a, htext, List.ne_nil_of_length_pos (hwidth ▸ hpos), ha, .inr ⟨hwidth, hread⟩⟩

end Lexeme

end RegCode
