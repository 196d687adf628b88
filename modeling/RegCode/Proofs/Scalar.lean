import Mathlib.Data.List.Basic
import RegCode.Text.Utf8

/-!
# Scalar values and their bytes

Decoding accepts exactly the encodings of scalar values, so the character at the front of a text is the one whose
bytes the text begins with. What a lead byte and the bytes behind it contribute to the value is arithmetic in base
64. A text is made of its cells, the characters and the bytes that belong to none, and only high bytes belong to
none.
-/

namespace RegCode.Utf8

/-- The byte that carries the lowest six bits of a number behind a lead byte. -/
def tail (n : Nat) : UInt8 := UInt8.ofNat (n % 64 + 128)

theorem toNat_tail (n : Nat) : (tail n).toNat = n % 64 + 128 := by
  rw [tail, UInt8.toNat_ofNat']
  omega

theorem isContinuation_iff {b : UInt8} : isContinuation b = true ↔ 128 ≤ b.toNat ∧ b.toNat < 192 := by
  simp [isContinuation, UInt8.le_iff_toNat_le, UInt8.lt_iff_toNat_lt]

theorem tail_of_isContinuation {b : UInt8} (h : isContinuation b = true) (n : Nat) :
    tail (n * 64 + (b.toNat - 128)) = b := by
  obtain ⟨hlo, hhi⟩ := isContinuation_iff.mp h
  apply UInt8.toNat_inj.mp
  rw [toNat_tail]
  omega

theorem isContinuation_tail (n : Nat) : isContinuation (tail n) = true := by
  rw [isContinuation_iff, toNat_tail]
  omega

theorem continued_tail (value n more : Nat) (rest : Bytes) :
    continued value (more + 1) (tail n :: rest) = continued (value * 64 + n % 64) more rest := by
  rw [continued, if_pos (isContinuation_tail n), toNat_tail, Nat.add_sub_cancel]

theorem continued_zero (value : Nat) (text : Bytes) : continued value 0 text = some value := rfl

theorem continued_succ {value more v : Nat} {text : Bytes} (h : continued value (more + 1) text = some v) :
    ∃ b rest, text = b :: rest ∧ isContinuation b = true ∧
      continued (value * 64 + (b.toNat - 128)) more rest = some v := by
  cases text with
  | nil => cases h
  | cons b rest =>
    by_cases hb : isContinuation b = true
    · rw [continued, if_pos hb] at h
      exact ⟨b, rest, rfl, hb, h⟩
    · rw [continued, if_neg hb] at h
      cases h

/-! ## Lead bytes -/

theorem announced_eq_some_iff {lead : UInt8} {more least : Nat} : announced lead = some (more, least) ↔
    (lead.toNat < 128 ∧ more = 0 ∧ least = 0) ∨ (194 ≤ lead.toNat ∧ lead.toNat < 224 ∧ more = 1 ∧ least = 128) ∨
    (224 ≤ lead.toNat ∧ lead.toNat < 240 ∧ more = 2 ∧ least = 2048) ∨
    (240 ≤ lead.toNat ∧ lead.toNat < 248 ∧ more = 3 ∧ least = 65536) := by
  simp only [announced, UInt8.lt_iff_toNat_lt, UInt8.reduceToNat]
  grind

theorem leadBits_zero (lead : UInt8) : leadBits lead 0 = lead.toNat := rfl

theorem leadBits_one (lead : UInt8) : leadBits lead 1 = lead.toNat - 192 := rfl

theorem leadBits_two (lead : UInt8) : leadBits lead 2 = lead.toNat - 224 := rfl

theorem leadBits_three (lead : UInt8) : leadBits lead 3 = lead.toNat - 240 := rfl

theorem decode_cons {lead : UInt8} {rest : Bytes} {more least : Nat} (ha : announced lead = some (more, least)) :
    decode (lead :: rest) =
      match continued (leadBits lead more) more rest with
      | none => none
      | some v => if h : least ≤ v ∧ v.isValidChar then some (Char.ofNatAux v h.2, more) else none := by
  rewrite [decode, ha]
  rfl

theorem decode_cons_iff {lead : UInt8} {rest : Bytes} {c : Char} {more : Nat} :
    decode (lead :: rest) = some (c, more) ↔ ∃ least, announced lead = some (more, least) ∧
      continued (leadBits lead more) more rest = some c.toNat ∧ least ≤ c.toNat := by
  constructor
  · intro h
    cases ha : announced lead with
    | none =>
      rw [decode, ha] at h
      cases h
    | some p =>
      obtain ⟨more', least⟩ := p
      rw [decode_cons ha] at h
      cases hv : continued (leadBits lead more') more' rest with
      | none =>
        rw [hv] at h
        cases h
      | some v =>
        rw [hv] at h
        dsimp only at h
        by_cases hc : least ≤ v ∧ v.isValidChar
        · rw [dif_pos hc] at h
          cases h
          exact ⟨least, rfl, hv, hc.1⟩
        · rw [dif_neg hc] at h
          cases h
  · rintro ⟨least, ha, hv, hle⟩
    rw [decode_cons ha, hv]
    exact dif_pos ⟨hle, c.valid⟩

/-! ## Whole characters -/

theorem encode_eq (c : Char) : String.utf8EncodeChar c =
    if c.toNat ≤ 127 then [UInt8.ofNat c.toNat]
    else if c.toNat ≤ 2047 then [UInt8.ofNat (c.toNat / 64 % 32 + 192), tail c.toNat]
    else if c.toNat ≤ 65535 then
      [UInt8.ofNat (c.toNat / 4096 % 16 + 224), tail (c.toNat / 64), tail c.toNat]
    else
      [UInt8.ofNat (c.toNat / 262144 % 8 + 240), tail (c.toNat / 4096), tail (c.toNat / 64), tail c.toNat] := rfl

theorem toNat_lt (c : Char) : c.toNat < 0x110000 := by
  have h : c.toNat.isValidChar := c.valid
  rcases h with h | h <;> omega

theorem decode_ascii {c : Char} (h : c.toNat ≤ 127) (rest : Bytes) :
    decode (UInt8.ofNat c.toNat :: rest) = some (c, 0) := by
  have hn : (UInt8.ofNat c.toNat).toNat = c.toNat := UInt8.toNat_ofNat_of_lt (show _ < 256 by omega)
  refine decode_cons_iff.mpr ⟨0, announced_eq_some_iff.mpr (.inl ⟨by omega, rfl, rfl⟩), ?_, Nat.zero_le _⟩
  rw [leadBits_zero, hn]
  exact continued_zero c.toNat rest

/-- The bytes of a character are read as that character, whatever follows. -/
theorem decode_encode (c : Char) (rest : Bytes) :
    decode (String.utf8EncodeChar c ++ rest) = some (c, (String.utf8EncodeChar c).length - 1) := by
  have hlt := toNat_lt c
  rw [encode_eq]
  split_ifs with h₁ h₂ h₃
  · exact decode_ascii h₁ rest
  · have hn : (UInt8.ofNat (c.toNat / 64 % 32 + 192)).toNat = c.toNat / 64 % 32 + 192 :=
      UInt8.toNat_ofNat_of_lt (show _ < 256 by omega)
    change decode (_ :: tail c.toNat :: rest) = some (c, 1)
    refine decode_cons_iff.mpr ⟨128, announced_eq_some_iff.mpr ?_, ?_, by omega⟩
    · exact .inr (.inl ⟨by omega, by omega, rfl, rfl⟩)
    · rw [leadBits_one, hn, continued_tail, continued_zero]
      exact congrArg some (by omega)
  · have hn : (UInt8.ofNat (c.toNat / 4096 % 16 + 224)).toNat = c.toNat / 4096 % 16 + 224 :=
      UInt8.toNat_ofNat_of_lt (show _ < 256 by omega)
    change decode (_ :: tail (c.toNat / 64) :: tail c.toNat :: rest) = some (c, 2)
    refine decode_cons_iff.mpr ⟨2048, announced_eq_some_iff.mpr ?_, ?_, by omega⟩
    · exact .inr (.inr (.inl ⟨by omega, by omega, rfl, rfl⟩))
    · rw [leadBits_two, hn, continued_tail, continued_tail, continued_zero]
      exact congrArg some (by omega)
  · have hn : (UInt8.ofNat (c.toNat / 262144 % 8 + 240)).toNat = c.toNat / 262144 % 8 + 240 :=
      UInt8.toNat_ofNat_of_lt (show _ < 256 by omega)
    change decode (_ :: tail (c.toNat / 4096) :: tail (c.toNat / 64) :: tail c.toNat :: rest) = some (c, 3)
    refine decode_cons_iff.mpr ⟨65536, announced_eq_some_iff.mpr ?_, ?_, by omega⟩
    · exact .inr (.inr (.inr ⟨by omega, by omega, rfl, rfl⟩))
    · rw [leadBits_three, hn, continued_tail, continued_tail, continued_tail, continued_zero]
      exact congrArg some (by omega)

theorem encode_of_decode {text : Bytes} {c : Char} {more : Nat} (h : decode text = some (c, more)) :
    ∃ rest, text = String.utf8EncodeChar c ++ rest ∧ (String.utf8EncodeChar c).length = more + 1 := by
  cases text with
  | nil => cases h
  | cons lead rest =>
    obtain ⟨least, ha, hv, hle⟩ := decode_cons_iff.mp h
    have hlead (n : Nat) (hn : n = lead.toNat) : UInt8.ofNat n = lead := by rw [hn, UInt8.ofNat_toNat]
    rw [encode_eq]
    -- by how many bytes the lead byte announces
    rcases announced_eq_some_iff.mp ha with ⟨h₁, rfl, rfl⟩ | ⟨h₁, h₂, rfl, rfl⟩ | ⟨h₁, h₂, rfl, rfl⟩ |
      ⟨h₁, h₂, rfl, rfl⟩
    · have hv : lead.toNat = c.toNat := Option.some.inj hv
      rw [if_pos (by omega), hlead _ hv.symm]
      exact ⟨rest, rfl, rfl⟩
    · obtain ⟨b₁, rest, rfl, hb₁, hv⟩ := continued_succ hv
      have hv : (lead.toNat - 192) * 64 + (b₁.toNat - 128) = c.toNat := Option.some.inj hv
      have hb := isContinuation_iff.mp hb₁
      rw [if_neg (by omega), if_pos (by omega), hlead _ (by omega), ← hv, tail_of_isContinuation hb₁]
      exact ⟨rest, rfl, rfl⟩
    · obtain ⟨b₁, rest, rfl, hb₁, hv⟩ := continued_succ hv
      obtain ⟨b₂, rest, rfl, hb₂, hv⟩ := continued_succ hv
      have hv : ((lead.toNat - 224) * 64 + (b₁.toNat - 128)) * 64 + (b₂.toNat - 128) = c.toNat := Option.some.inj hv
      have hb := isContinuation_iff.mp hb₁
      have hb' := isContinuation_iff.mp hb₂
      have hq : c.toNat / 64 = (lead.toNat - 224) * 64 + (b₁.toNat - 128) := by omega
      rw [if_neg (by omega), if_neg (by omega), if_pos (by omega), hlead _ (by omega), hq, ← hv,
        tail_of_isContinuation hb₁, tail_of_isContinuation hb₂]
      exact ⟨rest, rfl, rfl⟩
    · obtain ⟨b₁, rest, rfl, hb₁, hv⟩ := continued_succ hv
      obtain ⟨b₂, rest, rfl, hb₂, hv⟩ := continued_succ hv
      obtain ⟨b₃, rest, rfl, hb₃, hv⟩ := continued_succ hv
      have hv : (((lead.toNat - 240) * 64 + (b₁.toNat - 128)) * 64 + (b₂.toNat - 128)) * 64 + (b₃.toNat - 128) =
        c.toNat := Option.some.inj hv
      have hb := isContinuation_iff.mp hb₁
      have hb' := isContinuation_iff.mp hb₂
      have hb'' := isContinuation_iff.mp hb₃
      have hq : c.toNat / 64 = ((lead.toNat - 240) * 64 + (b₁.toNat - 128)) * 64 + (b₂.toNat - 128) := by omega
      have hq' : c.toNat / 4096 = (lead.toNat - 240) * 64 + (b₁.toNat - 128) := by omega
      rw [if_neg (by omega), if_neg (by omega), if_neg (by omega), hlead _ (by omega), hq, hq', ← hv,
        tail_of_isContinuation hb₁, tail_of_isContinuation hb₂, tail_of_isContinuation hb₃]
      exact ⟨rest, rfl, rfl⟩

theorem decode_eq_some_iff {text : Bytes} {c : Char} {more : Nat} : decode text = some (c, more) ↔
    String.utf8EncodeChar c <+: text ∧ (String.utf8EncodeChar c).length = more + 1 := by
  constructor
  · intro h
    obtain ⟨rest, rfl, hl⟩ := encode_of_decode h
    exact ⟨List.prefix_append .., hl⟩
  · rintro ⟨⟨rest, rfl⟩, hl⟩
    rw [decode_encode, hl, Nat.add_sub_cancel]

theorem decode_eq_none_iff {text : Bytes} : decode text = none ↔ ∀ c, ¬ String.utf8EncodeChar c <+: text := by
  constructor
  · rintro h c ⟨rest, rfl⟩
    rw [decode_encode] at h
    cases h
  · intro h
    cases hd : decode text with
    | none => rfl
    | some p => exact absurd (decode_eq_some_iff.mp hd).1 (h p.1)

/-! ## Texts in cells -/

theorem length_encode_pos (c : Char) : 0 < (String.utf8EncodeChar c).length := by
  have h := decode_encode c []
  obtain ⟨rest, -, hl⟩ := encode_of_decode h
  omega

theorem cellsOnto_nil (acc : List Cell) : cellsOnto acc [] = acc := by
  rw [cellsOnto]

theorem cellsOnto_encode (acc : List Cell) (c : Char) (rest : Bytes) :
    cellsOnto acc (String.utf8EncodeChar c ++ rest) = cellsOnto (.scalar c :: acc) rest := by
  have hpos := length_encode_pos c
  have hdecode := decode_encode c rest
  revert hpos hdecode
  cases String.utf8EncodeChar c with
  | nil => exact fun hpos => absurd hpos (Nat.lt_irrefl 0)
  | cons b bytes =>
    intro _ hdecode
    rw [List.cons_append] at hdecode ⊢
    rw [cellsOnto, hdecode]
    simp

theorem cellsOnto_stray (acc : List Cell) {b : UInt8} {rest : Bytes} (h : decode (b :: rest) = none) :
    cellsOnto acc (b :: rest) = cellsOnto (.stray b :: acc) rest := by
  rw [cellsOnto, h]

/-- A text is empty, begins with a character, or begins with a byte that is none. -/
theorem text_induction {motive : Bytes → Prop} (nil : motive [])
    (scalar : ∀ c rest, motive rest → motive (String.utf8EncodeChar c ++ rest))
    (stray : ∀ b rest, decode (b :: rest) = none → motive rest → motive (b :: rest)) (text : Bytes) :
    motive text := by
  generalize hn : text.length = n
  induction n using Nat.strongRecOn generalizing text with
  | ind n ih =>
    subst hn
    cases text with
    | nil => exact nil
    | cons b rest =>
      cases hd : decode (b :: rest) with
      | none => exact stray b rest hd (ih rest.length (by simp) rest rfl)
      | some p =>
        obtain ⟨c, more⟩ := p
        obtain ⟨rest', heq, hl⟩ := encode_of_decode hd
        rw [heq]
        refine scalar c rest' (ih rest'.length ?_ rest' rfl)
        rw [heq, List.length_append]
        omega

theorem cellsOnto_eq (acc : List Cell) (text : Bytes) : cellsOnto acc text = (cells text).reverse ++ acc := by
  unfold cells
  rw [List.reverse_reverse]
  induction text using text_induction generalizing acc with
  | nil => simp [cellsOnto_nil]
  | scalar c rest ih =>
    rw [cellsOnto_encode, cellsOnto_encode, ih, ih [_]]
    simp
  | stray b rest h ih =>
    rw [cellsOnto_stray acc h, cellsOnto_stray [] h, ih, ih [_]]
    simp

@[simp] theorem cells_nil : cells [] = [] := by
  rw [cells, cellsOnto_nil]
  rfl

@[simp] theorem cells_encode (c : Char) (rest : Bytes) :
    cells (String.utf8EncodeChar c ++ rest) = .scalar c :: cells rest := by
  rw [cells, cellsOnto_encode, cellsOnto_eq]
  simp

theorem cells_stray {b : UInt8} {rest : Bytes} (h : decode (b :: rest) = none) :
    cells (b :: rest) = .stray b :: cells rest := by
  rw [cells, cellsOnto_stray [] h, cellsOnto_eq]
  simp

def encodeAll (cs : List Char) : Bytes := cs.flatMap String.utf8EncodeChar

@[simp] theorem encodeAll_nil : encodeAll [] = [] := rfl

@[simp] theorem encodeAll_cons (c : Char) (cs : List Char) :
    encodeAll (c :: cs) = String.utf8EncodeChar c ++ encodeAll cs :=
  List.flatMap_cons

@[simp] theorem encodeAll_append (cs ds : List Char) : encodeAll (cs ++ ds) = encodeAll cs ++ encodeAll ds :=
  List.flatMap_append

@[simp] theorem cells_encodeAll (cs : List Char) : cells (encodeAll cs) = cs.map .scalar := by
  induction cs with
  | nil => simp
  | cons c cs ih => rw [encodeAll_cons, cells_encode, ih, List.map_cons]

theorem toNat_ofNat {n : Nat} (h : n.isValidChar) : (Char.ofNat n).toNat = n := by
  rw [Char.ofNat, dif_pos h]
  rfl

theorem encode_ascii {c : Char} (h : c.toNat < 128) : String.utf8EncodeChar c = [UInt8.ofNat c.toNat] := by
  rw [encode_eq, if_pos (by omega)]

theorem exists_encodeAll_ascii {text : Bytes} (h : ∀ b ∈ text, b.toNat < 128) : ∃ cs, text = encodeAll cs := by
  induction text with
  | nil => exact ⟨[], rfl⟩
  | cons b text ih =>
    obtain ⟨hb, htext⟩ := List.forall_mem_cons.mp h
    obtain ⟨cs, rfl⟩ := ih htext
    have hc : (Char.ofNat b.toNat).toNat = b.toNat := toNat_ofNat (.inl (by omega))
    exact ⟨Char.ofNat b.toNat :: cs, by rw [encodeAll_cons, encode_ascii (by omega), hc, UInt8.ofNat_toNat]; rfl⟩

/-- A text without stray bytes is made of characters. -/
theorem valid_iff {text : Bytes} : valid text = true ↔ ∃ cs, text = encodeAll cs := by
  rw [valid, cellsOnto_eq, List.append_nil, List.all_reverse]
  constructor
  · intro h
    induction text using text_induction with
    | nil => exact ⟨[], rfl⟩
    | scalar c rest ih =>
      rw [cells_encode, List.all_cons, Bool.and_eq_true] at h
      obtain ⟨cs, hcs⟩ := ih h.2
      exact ⟨c :: cs, by rw [encodeAll_cons, ← hcs]⟩
    | stray b rest hd ih =>
      rw [cells_stray hd, List.all_cons] at h
      cases h
  · rintro ⟨cs, rfl⟩
    rw [cells_encodeAll, List.all_map]
    exact List.all_eq_true.mpr fun _ _ => rfl

theorem flatMap_bytes_cells (text : Bytes) : (cells text).flatMap Cell.bytes = text := by
  induction text using text_induction with
  | nil => rw [cells_nil, List.flatMap_nil]
  | scalar c rest ih => rw [cells_encode, List.flatMap_cons, ih, Cell.bytes]
  | stray b rest h ih => rw [cells_stray h, List.flatMap_cons, ih, Cell.bytes, List.singleton_append]

/-- Every byte below 128 is a character. -/
theorem le_of_decode_eq_none {b : UInt8} {rest : Bytes} (h : decode (b :: rest) = none) : 128 ≤ b.toNat := by
  by_contra hlt
  have ha : announced b = some (0, 0) := announced_eq_some_iff.mpr (.inl ⟨by omega, rfl, rfl⟩)
  rw [decode_cons ha, leadBits_zero, continued_zero] at h
  dsimp only at h
  rw [dif_pos ⟨Nat.zero_le _, .inl (by omega)⟩] at h
  cases h

theorem le_of_stray_mem {text : Bytes} {b : UInt8} (h : .stray b ∈ cells text) : 128 ≤ b.toNat := by
  induction text using text_induction with
  | nil => simp at h
  | scalar c rest ih =>
    rw [cells_encode, List.mem_cons] at h
    exact ih (h.resolve_left (by simp))
  | stray a rest hd ih =>
    rw [cells_stray hd, List.mem_cons] at h
    rcases h with h | h
    · cases h
      exact le_of_decode_eq_none hd
    · exact ih h

end RegCode.Utf8
