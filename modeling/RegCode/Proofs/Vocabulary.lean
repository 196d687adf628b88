import RegCode.Proofs.NumberText
import RegCode.Proofs.ParseComplete
import RegCode.Proofs.Positions
import RegCode.Proofs.Rendering

/-!
# What a source is made of

The tokens of a source stand for names that are words and no keywords, for integers and floats that have numerals
without a sign, and for any strings. So do the leaves of every program that is read from a source without errors.
-/

namespace RegCode

/-! ## Numerals without a sign -/

namespace Binary64

theorem isPlain_of_word_lt {x : Binary64} (h : x.word < infiniteWord) : x.isPlain = true := by
  have hmag : x.magnitude = x.word := Nat.mod_eq_of_lt (Nat.lt_trans h (by decide))
  have hneg : x.isNegative = false := by
    have : infiniteWord < signBit := by decide
    simp only [isNegative, decide_eq_false_iff_not]
    omega
  have hnan : x.isNaN = false := by
    simp only [isNaN, hmag, decide_eq_false_iff_not]
    omega
  rw [isPlain, hneg, isInfinite_of_word_lt h, hnan]
  rfl

theorem IsNearest.word_lt {r : ℚ} {x : Binary64} (h : IsNearest false r x) : x.word < infiniteWord := by
  obtain ⟨w, hw, rfl⟩ := h
  have hlt : w < infiniteWord := hw.finite
  rwa [if_neg (by decide), word, UInt64.toNat_ofNat_of_lt' (Nat.lt_trans hlt (by decide))]

end Binary64

namespace Numeral

theorem Sign.eq_nil {sign text rest : Bytes} {negative : Bool} {b : UInt8} (hs : Sign sign negative)
    (h : b :: rest = sign ++ text) (hb : Text.isDigit b = true) : negative = false ∧ text = b :: rest := by
  cases hs with
  | none => exact ⟨rfl, h.symm⟩
  | plus | minus =>
    cases h
    cases hb

theorem word_lt_of_readBinary64 {b : UInt8} {rest : Bytes} {x : Binary64} (hb : Text.isDigit b = true)
    (h : readBinary64 (b :: rest) = some x) : x.word < Binary64.infiniteWord := by
  have hb' := (isDigit_iff.mp hb).2
  generalize htext : b :: rest = text at h
  cases readBinary64_iff.mp h with
  | number hs hr hx =>
    obtain ⟨rfl, -⟩ := hs.eq_nil htext hb
    exact hx.word_lt
  | infinite hs hn =>
    obtain ⟨-, rfl⟩ := hs.eq_nil htext hb
    rcases hn with hn | hn
    · exact absurd hn (not_named_of_le hb' (by decide))
    · exact absurd hn (not_named_of_le hb' (by decide))
  | notANumber hn =>
    subst htext
    exact absurd hn (not_named_of_le hb' (by decide))

theorem toInt_of_readInt64 {b : UInt8} {rest : Bytes} {v : Int64} (hb : Text.isDigit b = true)
    (h : readInt64 (b :: rest) = some v) : 0 ≤ v.toInt := by
  obtain ⟨sign, digits, negative, ds, htext, hs, -, -, hv⟩ := readInt64_iff.mp h
  obtain ⟨rfl, -⟩ := hs.eq_nil htext hb
  rw [hv]
  exact Int.natCast_nonneg _

end Numeral

/-! ## Terminals -/

def IsName (n : Bytes) : Prop :=
  (∃ b w, n = b :: w ∧ Lexeme.isLetter b = true) ∧ (∀ x ∈ n, Lexeme.isWordByte x = true) ∧
  ∀ k, (n, k) ∉ Lexeme.reserved

namespace Terminal

/-- The terminals that tokens of a source stand for, marks apart. -/
def Sourced : Terminal → Prop
  | ident n => IsName n
  | x => x.inRange = true

end Terminal

namespace Literal

/-- The literals that a source can hold: numbers without a sign, and strings. -/
def Sourced : Literal → Prop
  | int v => 0 ≤ v.toInt
  | float x => x.isPlain = true
  | str _ => True
  | unmarked _ => False

theorem render_int {v : Int64} (h : 0 ≤ v.toInt) : ∃ n, (int v).render = Text.decimal n ∧ v.toInt = n := by
  obtain ⟨n, hn⟩ := Int.eq_ofNat_of_zero_le h
  exact ⟨n, by rw [render, hn]; rfl, hn⟩

end Literal

theorem Lexeme.Written.sourced {after literal raw : Bytes} {k : Kind} (h : Written after k literal raw)
    {x : Terminal} {pos : Position} (hx : (Token.mk k literal pos).terminal? = some x) : x.Sourced := by
  cases h with
  | @word b w _ hb hw ha hkind =>
    rcases hkind with hk | ⟨rfl, hno⟩
    · have hall : ∀ p ∈ Lexeme.reserved, p.2.isMark = true := by decide
      rw [Token.terminal?_mark rfl (hall _ hk)] at hx
      cases hx
      rfl
    · cases hx
      refine ⟨⟨b, w, rfl, Lexeme.isLetter_iff.mpr hb⟩, ?_, hno⟩
      rw [List.forall_mem_cons]
      exact ⟨Lexeme.isWordByte_iff.mpr (.inl hb), fun x hx => Lexeme.isWordByte_iff.mpr (hw x hx)⟩
  | int hne hds ha hp =>
    obtain ⟨d, ds, rfl⟩ := List.exists_cons_of_ne_nil hne
    obtain ⟨v, hv, rfl⟩ := Option.map_eq_some_iff.mp hx
    exact decide_eq_true (Numeral.toInt_of_readInt64 (isDigit_iff.mpr (hds d (.head ds))) hv)
  | @float ds es hne hds hne' hes ha =>
    obtain ⟨d, ds, rfl⟩ := List.exists_cons_of_ne_nil hne
    obtain ⟨v, hv, rfl⟩ := Option.map_eq_some_iff.mp hx
    exact Binary64.isPlain_of_word_lt (Numeral.word_lt_of_readBinary64 (isDigit_iff.mpr (hds d (.head ds))) hv)
  | sign hk =>
    have hall : ∀ p ∈ Lexeme.signs, p.2.isMark = true := by decide
    rw [Token.terminal?_mark rfl (hall _ hk)] at hx
    cases hx
    rfl
  | string hw =>
    cases hx
    rfl
  | character | stray | unterminated =>
    cases hx
    rfl

theorem Token.ReadIn.sourced {text : Bytes} {t : Token} (h : t.ReadIn text) {x : Terminal}
    (hx : t.terminal? = some x) :
    x.Sourced := by
  obtain ⟨front, b, rest, -, hgap, rfl⟩ := h
  obtain ⟨raw, after, -, hw, -⟩ := Lexeme.read_written hgap
  exact hw.sourced hx

theorem tokenize_takeWhile (source : Bytes) :
    ∀ t ∈ (tokenize source).takeWhile (·.kind != .eof), t.ReadIn (Text.Canonical.compose source) := by
  obtain ⟨front, eof, heq, hall, heof, -⟩ := tokenize_readIn source
  intro t ht
  have hmem := List.takeWhile_sublist _ |>.mem ht
  have hk := List.mem_takeWhile_imp (p := fun t : Token => t.kind != .eof) ht
  rw [heq, List.mem_append, List.mem_singleton] at hmem
  rcases hmem with hmem | rfl
  · exact hall t hmem
  · exact absurd heof (bne_iff_ne.mp hk)

/-- A program that is read without errors is one of the grammar, and its leaves are those of a source. -/
theorem parseSource_sourced {source : Bytes} (h : (parseSource source).errors = []) :
    (parseSource source).program.proper = true ∧ ∀ x ∈ (parseSource source).program.yield, x.Sourced := by
  obtain ⟨hp, hy⟩ := parse_body h
  refine ⟨hp, fun x hx => ?_⟩
  have hmem : some x ∈ ((tokenize source).takeWhile (·.kind != .eof)).map Token.terminal? := by
    rw [spells_iff.mp hy]
    exact List.mem_map_of_mem hx
  obtain ⟨t, ht, heq⟩ := List.mem_map.mp hmem
  exact (tokenize_takeWhile source t ht).sourced heq

end RegCode
