import RegCode.Proofs.Legible

/-!
# Quoted text tells itself

An escape has a letter behind its backslash that says how many hexadecimal digits follow, and the letter and the
digits give the character or the byte. A character that is written as it is has another first byte than a backslash
or a quotation mark. So the text between two quotation marks is determined by what is written for it, and so is the
place where it ends.
-/

namespace RegCode.Text.Quoted

def digitsBehind (l : UInt8) : Nat := if l = 120 then 2 else if l = 117 then 4 else if l = 85 then 8 else 0

def ofLetter (l : UInt8) : Nat :=
  match l.toNat with
  | 97 => 7
  | 98 => 8
  | 102 => 12
  | 110 => 10
  | 114 => 13
  | 116 => 9
  | 118 => 11
  | n => n

/-- What an escape with the letter `l` and the number `n` stands for. Behind `x` stand the code of a character below
128 or a byte that is no character. -/
def ofEscape (l : UInt8) (n : Nat) : Utf8.Cell :=
  if l = 120 then if n < 128 then .scalar (Char.ofNat n) else .stray (UInt8.ofNat n)
  else if digitsBehind l = 0 then .scalar (Char.ofNat (ofLetter l)) else .scalar (Char.ofNat n)

def letters : Bytes := [34, 92, 97, 98, 102, 110, 114, 116, 118, 120, 117, 85]

theorem escapeMarks : txt "\\x" = [92, 120] ∧ txt "\\u" = [92, 117] ∧ txt "\\U" = [92, 85] := by
  decide +kernel

theorem ofEscape_letter? {c : Char} {l : UInt8} (h : letter? c = some l) :
    l ∈ letters ∧ digitsBehind l = 0 ∧ ofEscape l 0 = .scalar c := by
  have hc := Char.ofNat_toNat c
  unfold letter? at h
  split at h <;> cases h <;> rename_i hn <;> rw [hn] at hc <;> exact ⟨by decide, rfl, congrArg Utf8.Cell.scalar hc⟩

/-- A cell that is read from a text: only a high byte is no character. -/
def Readable : Utf8.Cell → Prop
  | .scalar _ => True
  | .stray b => 128 ≤ b.toNat

/-- A cell is written as it is, or with an escape that tells it. -/
theorem escapeCell_cases {cell : Utf8.Cell} (h : Readable cell) :
    (∃ c, cell = .scalar c ∧ isPrintable c = true ∧ c.toNat ≠ 34 ∧ c.toNat ≠ 92 ∧
      escapeCell '"' cell = String.utf8EncodeChar c) ∨
    ∃ l ∈ letters, ∃ n, escapeCell '"' cell = 92 :: l :: hex (digitsBehind l) n ∧ n < 16 ^ digitsBehind l ∧
      ofEscape l n = cell := by
  cases cell with
  | stray b =>
    refine .inr ⟨120, by decide, b.toNat, ?_, b.toNat_lt, ?_⟩
    · rw [escapeCell, escapeMarks.1]
      rfl
    · have hb : ¬b.toNat < 128 := Nat.not_lt.mpr h
      rw [ofEscape, if_pos rfl, if_neg hb, UInt8.ofNat_toNat]
  | scalar c =>
    dsimp only [escapeCell]
    unfold escape
    by_cases hq : (decide (c = '"') || decide (c = '\\')) = true
    · rw [if_pos hq]
      simp only [Bool.or_eq_true, decide_eq_true_eq] at hq
      rcases hq with rfl | rfl
      · exact .inr ⟨34, by decide, 0, rfl, by decide, rfl⟩
      · exact .inr ⟨92, by decide, 0, rfl, by decide, rfl⟩
    rw [if_neg hq]
    simp only [Bool.or_eq_true, decide_eq_true_eq, not_or] at hq
    by_cases hp : isPrintable c = true
    · rw [if_pos hp]
      refine .inl ⟨c, rfl, hp, fun h34 => hq.1 ?_, fun h92 => hq.2 ?_, rfl⟩
      · exact Char.toNat_inj.mp h34
      · exact Char.toNat_inj.mp h92
    rw [if_neg hp]
    right
    -- from here on the character is not printable
    cases hl : letter? c with
    | some l =>
      obtain ⟨hletter, hd, he⟩ := ofEscape_letter? hl
      exact ⟨l, hletter, 0, by rw [hd]; rfl, by rw [hd]; decide, he⟩
    | none =>
      dsimp only
      have hlt := Utf8.toNat_lt c
      by_cases h20 : (decide (c.toNat < 0x20) || decide (c.toNat = 0x7F)) = true
      · rw [if_pos h20, escapeMarks.1]
        simp only [Bool.or_eq_true, decide_eq_true_eq] at h20
        refine ⟨120, by decide, c.toNat, rfl, show c.toNat < 256 by omega, ?_⟩
        rw [ofEscape, if_pos rfl, if_pos (by omega), Char.ofNat_toNat]
      rw [if_neg h20]
      by_cases h4 : c.toNat < 0x10000
      · rw [if_pos h4, escapeMarks.2.1]
        refine ⟨117, by decide, c.toNat, rfl, h4, ?_⟩
        rw [ofEscape, if_neg (by decide), if_neg (by decide), Char.ofNat_toNat]
      · rw [if_neg h4, escapeMarks.2.2]
        refine ⟨85, by decide, c.toNat, rfl, show c.toNat < 16 ^ 8 by omega, ?_⟩
        rw [ofEscape, if_neg (by decide), if_neg (by decide), Char.ofNat_toNat]

theorem encode_append_inj {c c' : Char} {rest rest' : Bytes}
    (h : String.utf8EncodeChar c ++ rest = String.utf8EncodeChar c' ++ rest') : c = c' ∧ rest = rest' := by
  have hd := Utf8.decode_encode c rest
  rw [h, Utf8.decode_encode] at hd
  have hc : c' = c := congrArg Prod.fst (Option.some.inj hd)
  subst hc
  exact ⟨rfl, List.append_cancel_left h⟩

theorem encode_append_ne {c : Char} {b : UInt8} (hb : b.toNat < 128) (hc : c.toNat ≠ b.toNat) (x y : Bytes) :
    String.utf8EncodeChar c ++ x ≠ b :: y := by
  intro h
  have hmem : b ∈ String.utf8EncodeChar c := by
    have hpos := Utf8.length_encode_pos c
    revert h hpos
    cases String.utf8EncodeChar c with
    | nil => exact fun _ hpos => absurd hpos (Nat.lt_irrefl 0)
    | cons a bytes =>
      intro h _
      cases h
      exact .head _
  exact hc (Utf8.toNat_of_mem_encode hmem hb)

theorem escapeCell_append_inj {cell cell' : Utf8.Cell} (hc : Readable cell) (hc' : Readable cell')
    {rest rest' : Bytes} (h : escapeCell '"' cell ++ rest = escapeCell '"' cell' ++ rest') :
    cell = cell' ∧ rest = rest' := by
  rcases escapeCell_cases hc with ⟨c, rfl, -, -, h92, he⟩ | ⟨l, -, n, he, hn, rfl⟩ <;>
    rcases escapeCell_cases hc' with ⟨c', rfl, -, -, h92', he'⟩ | ⟨l', -, n', he', hn', rfl⟩ <;>
    rw [he, he'] at h
  · obtain ⟨rfl, hrest⟩ := encode_append_inj h
    exact ⟨rfl, hrest⟩
  · exact absurd h (encode_append_ne (by decide) h92 _ _)
  · exact absurd h.symm (encode_append_ne (by decide) h92' _ _)
  · -- the letter tells the number of digits, and these the number
    simp only [List.cons_append, List.cons.injEq, true_and] at h
    obtain ⟨rfl, h⟩ := h
    obtain ⟨hdigits, hrest⟩ := List.append_inj h (by rw [hex, hex, length_hexWith, length_hexWith])
    rw [hex_inj hn hn' hdigits]
    exact ⟨rfl, hrest⟩

theorem escapeCell_append_ne {cell : Utf8.Cell} (h : Readable cell) (x y : Bytes) :
    escapeCell '"' cell ++ x ≠ 34 :: y := by
  rcases escapeCell_cases h with ⟨c, rfl, -, h34, -, he⟩ | ⟨l, -, n, he, -, -⟩ <;> rw [he]
  · exact encode_append_ne (by decide) h34 _ _
  · intro heq
    exact absurd (List.cons.inj heq).1 (by decide)

theorem flatMap_escapeCell_inj {l l' : List Utf8.Cell} (hl : ∀ cell ∈ l, Readable cell)
    (hl' : ∀ cell ∈ l', Readable cell) {rest rest' : Bytes}
    (h : l.flatMap (escapeCell '"') ++ 34 :: rest = l'.flatMap (escapeCell '"') ++ 34 :: rest') :
    l = l' ∧ rest = rest' := by
  induction l generalizing l' with
  | nil =>
    cases l' with
    | nil => exact ⟨rfl, (List.cons.inj h).2⟩
    | cons cell' l' =>
      rw [List.flatMap_cons, List.append_assoc] at h
      exact absurd h.symm (escapeCell_append_ne (hl' cell' (.head _)) _ _)
  | cons cell l ih =>
    cases l' with
    | nil =>
      rw [List.flatMap_cons, List.append_assoc] at h
      exact absurd h (escapeCell_append_ne (hl cell (.head _)) _ _)
    | cons cell' l' =>
      rw [List.flatMap_cons, List.flatMap_cons, List.append_assoc, List.append_assoc] at h
      obtain ⟨rfl, hbehind⟩ := escapeCell_append_inj (hl cell (.head _)) (hl' cell' (.head _)) h
      obtain ⟨rfl, hrest⟩ := ih (fun x hx => hl x (.tail _ hx)) (fun x hx => hl' x (.tail _ hx)) hbehind
      exact ⟨rfl, hrest⟩

theorem readable_of_mem {text : Bytes} {cell : Utf8.Cell} (h : cell ∈ Utf8.cells text) : Readable cell := by
  cases cell with
  | scalar c => exact trivial
  | stray b => exact Utf8.le_of_stray_mem h

theorem quote_append_inj {s s' rest rest' : Bytes} (h : quote s ++ rest = quote s' ++ rest') :
    s = s' ∧ rest = rest' := by
  unfold quote at h
  simp only [List.cons_append, List.cons.injEq, true_and, List.append_assoc, List.nil_append] at h
  obtain ⟨hcells, hrest⟩ := flatMap_escapeCell_inj (fun _ => readable_of_mem) (fun _ => readable_of_mem) h
  refine ⟨?_, hrest⟩
  rw [← Utf8.flatMap_bytes_cells s, hcells, Utf8.flatMap_bytes_cells]

end RegCode.Text.Quoted
