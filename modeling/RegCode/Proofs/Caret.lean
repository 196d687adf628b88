import RegCode.Diagnostic
import RegCode.Proofs.Attachment
import RegCode.Proofs.Footing

/-!
# Where the caret stands

The column of an error counts bytes of the composed source, and the line that is shown is one of the source as it
was given. There is always a place in that line where the token begins: the characters in front of it are composed
to what stands in front of the token. The caret stands below this place if these characters are as long as they are
composed. Otherwise it stands elsewhere, unless by chance: where a character is cut, each of its bytes counts as
one, and these may be as many as it and the characters behind it.
-/

namespace RegCode

/-! ## Characters that are cut -/

namespace Utf8

theorem isContinuation_of_mem_tail {c : Char} {b : UInt8} (h : b ∈ (String.utf8EncodeChar c).tail) :
    isContinuation b = true := by
  have htail : ∃ n, b = tail n := by
    rw [encode_eq] at h
    split_ifs at h <;> simp only [List.tail_cons, List.mem_cons, List.not_mem_nil, or_false] at h
    · exact ⟨_, h⟩
    · exact h.elim (⟨_, ·⟩) (⟨_, ·⟩)
    · exact h.elim (⟨_, ·⟩) (·.elim (⟨_, ·⟩) (⟨_, ·⟩))
  obtain ⟨n, rfl⟩ := htail
  exact isContinuation_tail n

theorem cells_continuation {text : Bytes} (h : ∀ b ∈ text, isContinuation b = true) :
    cells text = text.map .stray := by
  induction text with
  | nil => exact cells_nil
  | cons b text ih =>
    obtain ⟨hb, htext⟩ := List.forall_mem_cons.mp h
    have hnone : decode (b :: text) = none := by
      have hannounced : announced b = none := by
        obtain ⟨hlo, hhi⟩ := isContinuation_iff.mp hb
        cases ha : announced b with
        | none => rfl
        | some p =>
          have := announced_eq_some_iff.mp ha
          omega
      rw [decode, hannounced]
    rw [cells_stray hnone, ih htext, List.map_cons]

theorem cells_take_encode {c : Char} {n : Nat} (h : n < (String.utf8EncodeChar c).length) :
    cells ((String.utf8EncodeChar c).take n) = ((String.utf8EncodeChar c).take n).map .stray := by
  cases hcut : (String.utf8EncodeChar c).take n with
  | nil => exact cells_nil
  | cons b bytes =>
    have hnone : decode (b :: bytes) = none := by
      rw [← hcut]
      refine decode_eq_none_iff.mpr fun d hd => ?_
      -- a character at the front would be the whole one
      have hwhole := hd.trans (List.take_prefix n _)
      have hdecode := decode_encode c []
      rw [List.append_nil] at hdecode
      obtain ⟨rest, heq⟩ := hwhole
      rw [← heq, decode_encode] at hdecode
      obtain rfl : d = c := congrArg Prod.fst (Option.some.inj hdecode)
      have hlen := hd.length_le
      rw [List.length_take] at hlen
      omega
    have hbytes : ∀ x ∈ bytes, isContinuation x = true := by
      intro x hx
      have htail : bytes = (String.utf8EncodeChar c).tail.take (n - 1) := by
        rw [show bytes = (b :: bytes).tail from rfl, ← hcut, ← List.drop_one, ← List.drop_one, List.drop_take]
      rw [htail] at hx
      exact isContinuation_of_mem_tail (List.mem_of_mem_take hx)
    rw [cells_stray hnone, cells_continuation hbytes, List.map_cons]

theorem cells_append (cs : List Char) (text : Bytes) :
    cells (encodeAll cs ++ text) = cs.map .scalar ++ cells text := by
  induction cs with
  | nil => rfl
  | cons c cs ih => rw [encodeAll_cons, List.append_assoc, cells_encode, ih, List.map_cons, List.cons_append]

theorem cells_ne_nil {text : Bytes} (h : text ≠ []) : cells text ≠ [] := by
  intro hnil
  have := flatMap_bytes_cells text
  rw [hnil] at this
  exact h this.symm

end Utf8

/-! ## Lines -/

def lastLine (front : Bytes) : Bytes := front.drop (lineStart front)

theorem lineStart_le (front : Bytes) : lineStart front ≤ front.length := by
  unfold lineStart
  split
  · exact Nat.zero_le _
  · exact Nat.sub_le _ _

theorem length_lastLine (front : Bytes) : (lastLine front).length = front.length - lineStart front :=
  List.length_drop

theorem lastLine_concat (front : Bytes) (b : UInt8) :
    lastLine (front ++ [b]) = if b = Text.newline then [] else lastLine front ++ [b] := by
  rw [lastLine, lineStart_concat]
  split
  · exact List.drop_of_length_le (by simp)
  · exact List.drop_append_of_le_length (lineStart_le front)

theorem lastLine_append {bytes : Bytes} (h : Text.newline ∉ bytes) (front : Bytes) :
    lastLine (front ++ bytes) = lastLine front ++ bytes := by
  induction bytes using List.reverseRecOn with
  | nil => rw [List.append_nil, List.append_nil]
  | append_singleton bytes b ih =>
    rw [List.mem_append, List.mem_singleton, not_or] at h
    rw [← List.append_assoc, lastLine_concat, if_neg (Ne.symm h.2), ih h.1, List.append_assoc]

namespace Text

/-- One byte of a text that is split: the line that is open and those before it are held last one first. -/
def splitStep (p : Bytes × List Bytes) (b : UInt8) : Bytes × List Bytes :=
  if b = newline then ([], p.1.reverse :: p.2) else (b :: p.1, p.2)

theorem splitOn_eq (text : Bytes) : splitOn newline text =
    ((text.foldl splitStep ([], [])).1.reverse :: (text.foldl splitStep ([], [])).2).reverse := rfl

theorem foldl_splitStep (front : Bytes) :
    ∃ pieces, front.foldl splitStep ([], []) = ((lastLine front).reverse, pieces) ∧
    pieces.length = front.count newline := by
  induction front using List.reverseRecOn with
  | nil => exact ⟨[], rfl, rfl⟩
  | append_singleton front b ih =>
    obtain ⟨pieces, heq, hlen⟩ := ih
    rw [List.foldl_append, heq, List.foldl_cons, List.foldl_nil, splitStep, lastLine_concat, List.count_append]
    by_cases hb : b = newline
    · rw [if_pos hb, if_pos hb, hb]
      exact ⟨_, rfl, by simp [hlen]⟩
    · rw [if_neg hb, if_neg hb]
      exact ⟨pieces, by simp, by simp [hlen, hb]⟩

theorem foldl_splitStep_rest (cur : Bytes) (pieces : List Bytes) (text : Bytes) : ∃ rest,
    ((text.foldl splitStep (cur, pieces)).1.reverse :: (text.foldl splitStep (cur, pieces)).2).reverse =
      pieces.reverse ++ (cur.reverse ++ text.takeWhile (· != newline)) :: rest := by
  induction text generalizing cur pieces with
  | nil => exact ⟨[], by simp⟩
  | cons b text ih =>
    rw [List.foldl_cons, splitStep]
    by_cases hb : b = newline
    · obtain ⟨rest, hrest⟩ := ih [] (cur.reverse :: pieces)
      rw [if_pos hb, hrest, hb]
      exact ⟨(([] : Bytes).reverse ++ text.takeWhile (· != newline)) :: rest, by simp⟩
    · obtain ⟨rest, hrest⟩ := ih (b :: cur) pieces
      rw [if_neg hb, hrest]
      exact ⟨rest, by simp [hb]⟩

theorem splitOn_getElem? (front rest : Bytes) : (splitOn newline (front ++ rest))[front.count newline]? =
    some (lastLine front ++ rest.takeWhile (· != newline)) := by
  obtain ⟨pieces, heq, hlen⟩ := foldl_splitStep front
  obtain ⟨more, hmore⟩ := foldl_splitStep_rest (lastLine front).reverse pieces rest
  rw [splitOn_eq, List.foldl_append, heq, hmore, List.getElem?_append_right (by simp [hlen])]
  simp [hlen]

theorem trimEnd_append {p : UInt8 → Bool} {b : UInt8} (hb : p b = false) (front rest : Bytes) :
    trimEnd p (front ++ b :: rest) = front ++ b :: trimEnd p rest := by
  rw [trimEnd, trimEnd, List.reverse_append, List.reverse_cons, List.append_assoc, List.dropWhile_append]
  split
  · next h =>
    rw [List.isEmpty_iff.mp h]
    simp [hb]
  · simp

end Text

/-! ## Blanks -/

namespace Diagnostic

def blanks (cs : List Char) : Bytes := cs.map fun c => if c = '\t' then 9 else 32

def blank (cell : Utf8.Cell) : UInt8 := if cell.bytes = [9] then 9 else 32

theorem caretPad_eq (line : Bytes) (n : Nat) : caretPad line (n + 1) = (Utf8.cells (line.take n)).map blank := by
  rw [caretPad, Int.add_sub_cancel, Int.toNat_natCast]
  rfl

theorem blank_scalar (c : Char) : blank (.scalar c) = if c = '\t' then 9 else 32 := by
  have htab : String.utf8EncodeChar c = [9] ↔ c = '\t' := by
    constructor
    · intro h
      have hdecode := Utf8.decode_encode c []
      rw [h] at hdecode
      exact (congrArg Prod.fst (Option.some.inj hdecode)).symm
    · rintro rfl
      rfl
  simp only [blank, Utf8.Cell.bytes, htab]

theorem map_blank_scalar (cs : List Char) : (cs.map .scalar).map blank = blanks cs := by
  rw [List.map_map]
  exact List.map_congr_left fun c _ => blank_scalar c

theorem blanks_append (cs ds : List Char) : blanks (cs ++ ds) = blanks cs ++ blanks ds := List.map_append

theorem blanks_eq_replicate_iff (cs : List Char) (n : Nat) :
    List.replicate n 32 = blanks cs ↔ n = cs.length ∧ '\t' ∉ cs := by
  rw [eq_comm, List.eq_replicate_iff, blanks, List.length_map, List.forall_mem_map]
  refine and_congr eq_comm ⟨fun h hmem => absurd (h _ hmem) (by decide), fun h c hc => if_neg ?_⟩
  rintro rfl
  exact h hc

theorem pad_cut (x : List Char) {c : Char} {n : Nat} (h : n < (String.utf8EncodeChar c).length) (rest : Bytes) :
    caretPad (Utf8.encodeAll x ++ (String.utf8EncodeChar c ++ rest)) (((Utf8.encodeAll x).length + n : Nat) + 1) =
      blanks x ++ List.replicate n 32 := by
  have hstray : ((String.utf8EncodeChar c).take n).map (blank ∘ .stray) = List.replicate n 32 := by
    rw [List.eq_replicate_iff, List.length_map, List.length_take, List.forall_mem_map]
    refine ⟨Nat.min_eq_left (Nat.le_of_lt h), fun b hb => if_neg fun h9 => ?_⟩
    -- a tab is all of its character
    obtain rfl : b = 9 := (List.cons.inj h9).1
    have hc := Utf8.toNat_of_mem_encode (List.mem_of_mem_take hb) (by decide)
    rw [Utf8.encode_ascii (by rw [hc]; decide)] at h hb
    obtain rfl : n = 0 := by simpa using h
    cases hb
  rw [caretPad_eq, List.take_length_add_append, List.take_append_of_le_length (Nat.le_of_lt h), Utf8.cells_append,
    Utf8.cells_take_encode h, List.map_append, map_blank_scalar, List.map_map, hstray]

theorem exists_cut {cs : List Char} {n : Nat} (h : n < (Utf8.encodeAll cs).length) : ∃ x c y k,
    cs = x ++ c :: y ∧ k < (String.utf8EncodeChar c).length ∧ n = (Utf8.encodeAll x).length + k := by
  induction cs generalizing n with
  | nil => cases h
  | cons c cs ih =>
    by_cases hlt : n < (String.utf8EncodeChar c).length
    · exact ⟨[], c, cs, n, rfl, hlt, by simp⟩
    · rw [Utf8.encodeAll_cons, List.length_append] at h
      obtain ⟨x, d, y, k, rfl, hk, heq⟩ := ih (n := n - (String.utf8EncodeChar c).length) (by omega)
      exact ⟨c :: x, d, y, k, rfl, hk, by rw [Utf8.encodeAll_cons, List.length_append]; omega⟩

/-- The caret stands behind a blank for each of the characters `cs` of its line if its column says so, or if the
bytes of a character that is cut are as many as that character and those behind it. -/
theorem caretPad_eq_iff (cs : List Char) {after : Bytes} (ha : after ≠ []) (n : Nat) :
    caretPad (Utf8.encodeAll cs ++ after) (n + 1) = blanks cs ↔ n = (Utf8.encodeAll cs).length ∨
      ∃ x c y, cs = x ++ c :: y ∧ n = (Utf8.encodeAll x).length + (y.length + 1) ∧
        y.length + 1 < (String.utf8EncodeChar c).length ∧ '\t' ∉ y := by
  have hcut {x y : List Char} {c : Char} {k : Nat} (hk : k < (String.utf8EncodeChar c).length) :
      caretPad (Utf8.encodeAll (x ++ c :: y) ++ after) (((Utf8.encodeAll x).length + k : Nat) + 1) =
      blanks (x ++ c :: y) ↔
        k = y.length + 1 ∧ '\t' ∉ y := by
    rw [Utf8.encodeAll_append, Utf8.encodeAll_cons, List.append_assoc, List.append_assoc, pad_cut x hk,
      blanks_append, List.append_cancel_left_eq, blanks_eq_replicate_iff, List.length_cons, List.mem_cons, not_or]
    refine and_congr_right fun hlen => and_iff_right ?_
    rintro rfl
    have hone : (String.utf8EncodeChar '\t').length = 1 := rfl
    omega
  constructor
  · intro h
    rcases Nat.lt_trichotomy n (Utf8.encodeAll cs).length with hlt | heq | hgt
    · obtain ⟨x, c, y, k, rfl, hk, rfl⟩ := exists_cut hlt
      obtain ⟨rfl, htab⟩ := (hcut hk).mp h
      exact .inr ⟨x, c, y, rfl, rfl, hk, htab⟩
    · exact .inl heq
    · -- there is more in the line, and the caret stands behind some of it
      obtain ⟨k, rfl⟩ := Nat.exists_eq_add_of_lt hgt
      have hmore : after.take (k + 1) ≠ [] := by simpa using ha
      rw [caretPad_eq, Nat.add_assoc, List.take_length_add_append, Utf8.cells_append, List.map_append,
        map_blank_scalar, List.append_right_eq_self, List.map_eq_nil_iff] at h
      exact absurd h (Utf8.cells_ne_nil hmore)
  · rintro (rfl | ⟨x, c, y, rfl, rfl, hlt, htab⟩)
    · rw [caretPad_eq, List.take_left', Utf8.cells_encodeAll, map_blank_scalar]
      rfl
    · exact (hcut hlt).mpr ⟨rfl, htab⟩

end Diagnostic

/-! ## Tokens in a source -/

def inLine (front : List Char) : List Char := (front.reverse.takeWhile (· != '\n')).reverse

theorem inLine_concat (front : List Char) (c : Char) :
    inLine (front ++ [c]) = if c = '\n' then [] else inLine front ++ [c] := by
  rw [inLine, List.reverse_append, List.reverse_singleton, List.singleton_append, List.takeWhile_cons]
  by_cases hc : c = '\n'
  · simp [hc]
  · simp [hc, inLine]

theorem lastLine_encodeAll (front : List Char) :
    lastLine (Utf8.encodeAll front) = Utf8.encodeAll (inLine front) := by
  induction front using List.reverseRecOn with
  | nil => rfl
  | append_singleton front c ih =>
    have hone : Utf8.encodeAll [c] = String.utf8EncodeChar c := by simp
    rw [Utf8.encodeAll_append, hone, inLine_concat]
    by_cases hc : c = '\n'
    · rw [if_pos hc, hc, show String.utf8EncodeChar '\n' = [Text.newline] from rfl, lastLine_concat, if_pos rfl]
      rfl
    · rw [if_neg hc, lastLine_append (Text.Quoted.oneLine_encode hc), ih, Utf8.encodeAll_append, hone]

def toLineEnd (rest : List Char) : Bytes :=
  Text.trimEnd (· == 13) ((Utf8.encodeAll rest).takeWhile (· != Text.newline))

/-- The source is made of `front` and `rest`, and `front` is composed to what stands in front of the token. -/
def Parted (source : Bytes) (t : Token) (front rest : List Char) : Prop :=
  source = Utf8.encodeAll (front ++ rest) ∧
    Text.Canonical.compose (Utf8.encodeAll front) = (Text.Canonical.compose source).take t.pos.offset.toNat

/-- Whether the rest of a source is composed as it is behind the front. The one mark that may be taken for a letter
where it stands first is not among those that the rest begins with. -/
def Unmistaken (rest : List Char) : Prop :=
  ∀ c ∈ rest.takeWhile fun c => Text.Canonical.added (.scalar c) ≠ 0, c.toNat ≠ Text.Canonical.kawiKiller

/-- A token parts the source unless it is crowded. The rest of the source is composed to the text from the token on,
unless the token is illegal and the rest begins with a mark that is mistaken. -/
theorem exists_parted {source : Bytes} (hvalid : Utf8.valid source = true) {t : Token}
    (ht : t.ReadIn (Text.Canonical.compose source)) (hc : ¬ t.Crowded (Text.Canonical.compose source)) :
    ∃ front rest, Parted source t front rest ∧ (t.kind ≠ .illegal ∨ Unmistaken rest →
      Text.Canonical.compose (Utf8.encodeAll rest) = t.onward (Text.Canonical.compose source)) := by
  have hlegal (hk : t.kind ≠ .illegal) := ht.head_lt hk
  obtain ⟨cs, rfl⟩ := Utf8.valid_iff.mp hvalid
  obtain ⟨before, b, after, htext, hgap, rfl⟩ := ht
  have htake : (Text.Canonical.compose (Utf8.encodeAll cs)).take (Position.behind before).offset.toNat =
      before := by
    rw [htext]
    simp [Position.behind]
  simp only [Token.onward_behind htext] at hlegal ⊢
  by_cases hb : b.toNat < 128
  · obtain ⟨front, rest, rfl, hfront, hrest⟩ := Text.Canonical.compose_cut hb htext
    exact ⟨front, rest, ⟨rfl, by rw [hfront, htake]⟩, fun _ => hrest⟩
  · have hplain : EndsPlain before := by
      by_contra hend
      refine hc ⟨fun x hx => ?_, by rwa [htake]⟩
      rw [Token.onward_behind htext] at hx
      cases Option.mem_some_iff.mp hx
      omega
    rcases List.eq_nil_or_concat' before with rfl | ⟨before, a, rfl⟩
    · exact ⟨[], cs, ⟨rfl, htake.symm⟩, fun _ => htext⟩
    · have ha := hplain a (by simp)
      rw [List.append_assoc] at htext
      obtain ⟨front, rest, rfl, hfront, hrest⟩ := Text.Canonical.compose_cut_behind ha htext
      refine ⟨front, rest, ⟨rfl, by rw [hfront, htake]⟩, ?_⟩
      rintro (hk | hrest')
      · exact absurd (hlegal hk b rfl) hb
      · exact hrest hrest'

theorem Parted.token {source : Bytes} {t : Token} {front rest : List Char} (h : Parted source t front rest)
    (ht : t.ReadIn (Text.Canonical.compose source)) : ∃ b after, Lexeme.isBlank b = false ∧
      Text.Canonical.compose (Utf8.encodeAll (front ++ rest)) =
        Text.Canonical.compose (Utf8.encodeAll front) ++ b :: after ∧
      t.pos = .behind (Text.Canonical.compose (Utf8.encodeAll front)) := by
  obtain ⟨rfl, hfront⟩ := h
  obtain ⟨text, b, after, htext, hgap, rfl⟩ := ht
  rw [htext] at hfront
  have hfront : Text.Canonical.compose (Utf8.encodeAll front) = text := by
    rw [hfront]
    simp [Position.behind]
  exact ⟨b, after, (Lexeme.gapStep_eq_zero_iff.mp hgap).1, by rw [hfront, htext], by rw [hfront]⟩

/-- What the token is part of begins neither with a line feed nor with a carriage return: these are composed to
themselves, and no token begins with one. -/
theorem Parted.rest_head {source : Bytes} {t : Token} {front rest : List Char} (h : Parted source t front rest)
    (ht : t.ReadIn (Text.Canonical.compose source)) :
    ∃ b bytes, Utf8.encodeAll rest = b :: bytes ∧ b ≠ Text.newline ∧ b ≠ 13 := by
  obtain ⟨b, after, hblank, htext, -⟩ := h.token ht
  cases rest with
  | nil => simp at htext
  | cons c rest =>
    have hc {k : Nat} (hk : k ∈ Text.Canonical.inert) (hb : Lexeme.isBlank (UInt8.ofNat k) = true) :
        c.toNat ≠ k := by
      rintro rfl
      have hlt := (Text.Canonical.inert_spec _ hk).2
      obtain ⟨more, hmore⟩ := Text.Canonical.compose_inert hk rest
      rw [Text.Canonical.compose_append front (Text.Canonical.added_ascii hlt), hmore] at htext
      obtain ⟨rfl, -⟩ := List.cons.inj (List.append_cancel_left htext)
      rw [hb] at hblank
      cases hblank
    obtain ⟨b, bytes, hbytes⟩ := List.exists_cons_of_length_pos (Utf8.length_encode_pos c)
    refine ⟨b, bytes ++ Utf8.encodeAll rest, by rw [Utf8.encodeAll_cons, hbytes, List.cons_append], ?_, ?_⟩
    · rintro rfl
      exact hc (k := 10) (by decide) rfl (Utf8.toNat_of_mem_encode (hbytes ▸ List.mem_cons_self) (by decide))
    · rintro rfl
      exact hc (k := 13) (by decide) rfl (Utf8.toNat_of_mem_encode (hbytes ▸ List.mem_cons_self) (by decide))

namespace Diagnostic

def laid (style : Style) (number : Int) (line pad : Bytes) : Bytes :=
  let number := Text.padLeft 4 32 (Text.integer number)
  let gutter (b : Bytes) : Bytes := style.inline .gutter (b ++ txt " |") ++ txt " "
  gutter number ++ line ++ txt "\n" ++
    gutter (List.replicate number.length 32) ++ pad ++ style.inline .caret (txt "^") ++ txt "\n"

theorem excerpt_parted (style : Style) {source : Bytes} {t : Token} {front rest : List Char}
    (h : Parted source t front rest) (ht : t.ReadIn (Text.Canonical.compose source)) : toLineEnd rest ≠ [] ∧
      excerpt style (sourceLines source) t.pos =
        laid style t.pos.line (Utf8.encodeAll (inLine front) ++ toLineEnd rest)
          (caretPad (Utf8.encodeAll (inLine front) ++ toLineEnd rest) t.pos.column) := by
  obtain ⟨b, bytes, hrest, hb, hb'⟩ := h.rest_head ht
  obtain ⟨-, -, -, -, hpos⟩ := h.token ht
  have hline : t.pos.line = 1 + ((Utf8.encodeAll front).count Text.newline : Nat) := by
    rw [hpos, ← Text.Canonical.count_compose (by decide)]
    rfl
  have htake : (Utf8.encodeAll rest).takeWhile (· != Text.newline) = b :: bytes.takeWhile (· != Text.newline) := by
    rw [hrest, List.takeWhile_cons, if_pos (bne_iff_ne.mpr hb)]
  have hkept : (b == 13) = false := beq_eq_false_iff_ne.mpr hb'
  have htrim (line : Bytes) : Text.trimEnd (· == 13) (line ++ b :: bytes.takeWhile (· != Text.newline)) =
      line ++ b :: Text.trimEnd (· == 13) (bytes.takeWhile (· != Text.newline)) :=
    Text.trimEnd_append (p := (· == 13)) hkept _ _
  have hshown : (sourceLines source)[t.pos.line.toNat - 1]? =
      some (Utf8.encodeAll (inLine front) ++ b :: bytes.takeWhile (· != Text.newline)) := by
    rw [hline, show (1 + ((Utf8.encodeAll front).count Text.newline : Int)).toNat - 1 =
      (Utf8.encodeAll front).count Text.newline by omega, h.1, Utf8.encodeAll_append, sourceLines,
      List.getElem?_toArray, Text.splitOn_getElem?, lastLine_encodeAll, htake]
  have hafter : toLineEnd rest = b :: Text.trimEnd (· == 13) (bytes.takeWhile (· != Text.newline)) := by
    rw [toLineEnd, htake]
    exact htrim []
  refine ⟨by rw [hafter]; exact List.cons_ne_nil _ _, ?_⟩
  unfold excerpt
  rw [if_neg (by omega), hshown]
  dsimp only
  rw [htrim, hafter]
  rfl

def headline (style : Style) (d : Diagnostic) : Bytes :=
  style.inline .label d.kind ++ txt ": " ++
    (if 0 < d.pos.line then style.inline .position d.pos.tag ++ txt " " else []) ++ d.message ++ txt "\n"

theorem print_eq (style : Style) (lines : Array Bytes) (d : Diagnostic) :
    d.print style lines = d.headline style ++ excerpt style lines d.pos := rfl

/-- The characters in front of a token in its line are as long as they are composed. Otherwise, by chance, the
column cuts one of them behind as many bytes as it and those behind it are. -/
def Aligned (front : List Char) : Prop :=
  let width := (lastLine (Text.Canonical.compose (Utf8.encodeAll front))).length
  width = (Utf8.encodeAll (inLine front)).length ∨
    ∃ x c y, inLine front = x ++ c :: y ∧ width = (Utf8.encodeAll x).length + (y.length + 1) ∧
      y.length + 1 < (String.utf8EncodeChar c).length ∧ '\t' ∉ y

theorem syntaxError_of_diagnostic {source : Bytes} {e : BuildError} (he : (compileSource source).1 = .error e)
    {d : Diagnostic} (hd : d ∈ e.diagnostics) :
    (parse (tokenize source)).errors = [] ∨ ∃ e ∈ (parse (tokenize source)).errors, e.pos = d.pos := by
  unfold compileSource readProgram parseSource at he
  cases hp : (parse (tokenize source)).errors with
  | nil => exact .inl rfl
  | cons x xs =>
    right
    simp only [hp, List.isEmpty_cons, Bool.false_eq_true, if_false, Except.error.injEq] at he
    subst he
    obtain ⟨e, hmem, rfl⟩ := List.mem_map.mp hd
    exact ⟨e, hmem, rfl⟩

/-- Every error of a valid source that is at a token other than the end is printed with the line the token is in,
and the source can be parted in front of the token, with a rest that is composed to the text from the token on
unless a mark at its beginning is mistaken. The caret stands behind one blank for each character in front of the
token in its line, and behind a tab for each tab, exactly if these characters are aligned. -/
theorem caret_placed (style : Style) {source : Bytes} (hvalid : Utf8.valid source = true) {e : BuildError}
    (he : (compileSource source).1 = .error e) {d : Diagnostic} (hd : d ∈ e.diagnostics) {t : Token}
    (ht : t ∈ tokenize source) (hk : t.kind ≠ .eof) (hpos : d.pos = t.pos) :
    (∃ front rest, Parted source t front rest ∧ (t.kind ≠ .illegal ∨ Unmistaken rest →
      Text.Canonical.compose (Utf8.encodeAll rest) = t.onward (Text.Canonical.compose source))) ∧
    ∀ front rest, Parted source t front rest →
      let line := Utf8.encodeAll (inLine front) ++ toLineEnd rest
      let pad := caretPad line d.pos.column
      toLineEnd rest ≠ [] ∧
      d.print style (sourceLines source) = d.headline style ++ laid style d.pos.line line pad ∧
      (pad = blanks (inLine front) ↔ Aligned front) := by
  obtain ⟨tokens, eof, heq, hread, heof, -⟩ := tokenize_readIn source
  have hin : t.ReadIn (Text.Canonical.compose source) := by
    rw [heq, List.mem_append, List.mem_singleton] at ht
    exact hread t (ht.resolve_right fun h => hk (h ▸ heof))
  constructor
  · have hplain := not_crowded source ht hk (hpos ▸ syntaxError_of_diagnostic he hd)
    exact exists_parted hvalid hin hplain
  · intro front rest hparted
    obtain ⟨hne, hshown⟩ := excerpt_parted style hparted hin
    refine ⟨hne, by rw [print_eq, hpos, hshown], ?_⟩
    obtain ⟨-, -, -, -, hplace⟩ := hparted.token hin
    have hcolumn : t.pos.column = (lastLine (Text.Canonical.compose (Utf8.encodeAll front))).length + 1 := by
      rw [hplace, length_lastLine]
      have := lineStart_le (Text.Canonical.compose (Utf8.encodeAll front))
      simp only [Position.behind]
      omega
    rw [hpos, hcolumn]
    exact caretPad_eq_iff _ hne _

/-- An operator without its right side, behind a letter with an accent of its own. -/
def accented : Bytes := txt "print \"e\u0301\" + ;"

theorem caret_placed_accented : Utf8.valid accented = true ∧
    ∃ e d t, (compileSource accented).1 = .error e ∧ d ∈ e.diagnostics ∧ t ∈ tokenize accented ∧ t.kind ≠ .eof ∧
      d.pos = t.pos ∧ Parted accented t "print \"e\u0301\" + ".toList [';'] ∧
      d.print ⟨false⟩ (sourceLines accented) = txt "syntax error: [1:14] Expect expression.\n" ++
        laid ⟨false⟩ 1 accented (List.replicate 12 32) ∧
      blanks "print \"e\u0301\" + ".toList = List.replicate 13 32 ∧ ¬ Aligned "print \"e\u0301\" + ".toList := by
  have hvalid : Utf8.valid accented = true := by decide +kernel
  have herrors : (parse (tokenize accented)).errors =
      [.atToken ⟨.semicolon, txt ";", ⟨13, 1, 14⟩⟩ .noExpression] := by
    decide +kernel
  have he : (compileSource accented).1 = .error (.parse (parse (tokenize accented)).errors) := by
    unfold compileSource readProgram parseSource
    dsimp only
    rw [herrors]
    rfl
  have hd : syntaxError ⟨13, 1, 14⟩ (txt "Expect expression.") ∈
      (BuildError.parse (parse (tokenize accented)).errors).diagnostics := by
    rw [herrors]
    decide +kernel
  have ht : (⟨.semicolon, txt ";", ⟨13, 1, 14⟩⟩ : Token) ∈ tokenize accented := by decide +kernel
  have hparted : Parted accented ⟨.semicolon, txt ";", ⟨13, 1, 14⟩⟩ "print \"e\u0301\" + ".toList [';'] := by
    constructor <;> decide +kernel
  obtain ⟨-, hplaced⟩ := caret_placed ⟨false⟩ hvalid he hd ht Kind.noConfusion rfl
  obtain ⟨-, hprint, hiff⟩ := hplaced _ _ hparted
  refine ⟨hvalid, _, _, _, he, hd, ht, Kind.noConfusion, rfl, hparted, ?_, by decide +kernel, ?_⟩
  · rw [hprint]
    decide +kernel
  · rw [← hiff]
    decide +kernel

end Diagnostic

end RegCode
