import RegCode.Proofs.Lexical
import RegCode.Proofs.Spelling

/-!
# Text that can be told apart

A number in front of something other than a digit is told from every other number, and so is what stands behind it.
Lines are told apart by the line feeds behind them, as long as they hold none themselves. Constants do not, whatever
bytes are in them: a line feed is no printable character, and all others are written as an escape.
-/

namespace RegCode

/-- A run of bytes of a class ends where the first other byte is. -/
theorem run_append_inj {p : UInt8 → Bool} {w w' rest rest' : Bytes} (hw : ∀ x ∈ w, p x = true)
    (hw' : ∀ x ∈ w', p x = true) (hr : ∀ x ∈ rest.head?, p x = false) (hr' : ∀ x ∈ rest'.head?, p x = false)
    (h : w ++ rest = w' ++ rest') : w = w' ∧ rest = rest' := by
  constructor
  · rw [← Lexeme.takeWhile_run hw hr, h, Lexeme.takeWhile_run hw' hr']
  · rw [← Lexeme.dropWhile_run hw hr, h, Lexeme.dropWhile_run hw' hr']

namespace Text

/-! ## Numbers -/

/-- The text does not go on with a digit. -/
def NoDigit (rest : Bytes) : Prop := ∀ x ∈ rest.head?, isDigit x = false

theorem noDigit_nil : NoDigit [] := by simp [NoDigit]

/-- In front of anything but a digit, what is written tells the value. -/
def Legible {α : Type} (write : α → Bytes) : Prop :=
  ∀ a a' rest rest', NoDigit rest → NoDigit rest' → write a ++ rest = write a' ++ rest' → a = a' ∧ rest = rest'

theorem decimal_legible : Legible decimal := by
  intro n m rest rest' hr hr' h
  obtain ⟨hd, hrest⟩ := run_append_inj (decimal_isDigit n) (decimal_isDigit m) hr hr' h
  refine ⟨?_, hrest⟩
  rw [← Numeral.ofDigits_decimal n, hd, Numeral.ofDigits_decimal]

namespace Legible

variable {α β : Type} {write : α → Bytes}

theorem inj (h : Legible write) {a a' : α} (heq : write a = write a') : a = a' :=
  (h a a' [] [] noDigit_nil noDigit_nil (by rw [heq])).1

theorem behind (h : Legible write) (lead : Bytes) : Legible fun a => lead ++ write a := by
  intro a a' rest rest' hr hr' heq
  rw [List.append_assoc, List.append_assoc] at heq
  exact h a a' rest rest' hr hr' (List.append_cancel_left heq)

theorem comp (h : Legible write) {f : β → α} (hf : ∀ b b', f b = f b' → b = b') : Legible fun b => write (f b) := by
  intro b b' rest rest' hr hr' heq
  obtain ⟨ha, hrest⟩ := h (f b) (f b') rest rest' hr hr' heq
  exact ⟨hf b b' ha, hrest⟩

end Legible

theorem decimal_head (n : Nat) : ∃ d ds, decimal n = d :: ds ∧ isDigit d = true := by
  have hpos := length_decimal_pos n
  have hdigits := decimal_isDigit n
  revert hpos hdigits
  cases decimal n with
  | nil => exact fun hpos => absurd hpos (Nat.lt_irrefl 0)
  | cons d ds => exact fun _ hdigits => ⟨d, ds, rfl, hdigits d (.head ds)⟩

theorem decimal_ne_cons {n : Nat} {b : UInt8} (hb : isDigit b = false) (x y : Bytes) : decimal n ++ x ≠ b :: y := by
  obtain ⟨d, ds, heq, hd⟩ := decimal_head n
  rw [heq]
  intro h
  cases h
  rw [hb] at hd
  cases hd

theorem integer_legible : Legible integer := by
  intro n m rest rest' hr hr' h
  cases n with
  | ofNat n =>
    cases m with
    | ofNat m =>
      obtain ⟨rfl, hrest⟩ := decimal_legible n m rest rest' hr hr' h
      exact ⟨rfl, hrest⟩
    | negSucc m => exact absurd h (decimal_ne_cons (by decide) rest _)
  | negSucc n =>
    cases m with
    | ofNat m => exact absurd h.symm (decimal_ne_cons (by decide) rest' _)
    | negSucc m =>
      obtain ⟨hn, hrest⟩ := decimal_legible (n + 1) (m + 1) rest rest' hr hr' (List.cons.inj h).2
      exact ⟨by rw [Nat.succ.inj hn], hrest⟩

theorem signed_legible : Legible signed := by
  intro n m rest rest' hr hr' h
  cases n with
  | ofNat n =>
    cases m with
    | ofNat m =>
      obtain ⟨rfl, hrest⟩ := decimal_legible n m rest rest' hr hr' (List.cons.inj h).2
      exact ⟨rfl, hrest⟩
    | negSucc m => exact absurd (List.cons.inj h).1 (by decide)
  | negSucc n =>
    cases m with
    | ofNat m => exact absurd (List.cons.inj h).1 (by decide)
    | negSucc m =>
      obtain ⟨hn, hrest⟩ := decimal_legible (n + 1) (m + 1) rest rest' hr hr' (List.cons.inj h).2
      exact ⟨by rw [Nat.succ.inj hn], hrest⟩

@[simp] theorem length_hexWith (write : Nat → UInt8) (width n : Nat) : (hexWith write width n).length = width := by
  induction width generalizing n with
  | zero => rfl
  | succ width ih => simp [hexWith, ih]

/-- So many digits tell a number that has no more. -/
theorem hexWith_inj {write : Nat → UInt8} (hw : ∀ a < 16, ∀ b < 16, write a = write b → a = b) {width n m : Nat}
    (hn : n < 16 ^ width) (hm : m < 16 ^ width) (h : hexWith write width n = hexWith write width m) : n = m := by
  induction width generalizing n m with
  | zero => omega
  | succ width ih =>
    obtain ⟨hfront, hlast⟩ := List.append_inj' h rfl
    rw [Nat.pow_succ] at hn hm
    have hdiv := ih (by omega) (by omega) hfront
    have hmod := hw _ (Nat.mod_lt n (by decide)) _ (Nat.mod_lt m (by decide)) (List.cons.inj hlast).1
    omega

theorem hexUpper_inj {width n m : Nat} (hn : n < 16 ^ width) (hm : m < 16 ^ width)
    (h : hexUpper width n = hexUpper width m) : n = m :=
  hexWith_inj (by decide) hn hm h

theorem hex_inj {width n m : Nat} (hn : n < 16 ^ width) (hm : m < 16 ^ width) (h : hex width n = hex width m) :
    n = m :=
  hexWith_inj (by decide) hn hm h

/-- A text filled up with blanks tells itself, if it holds none. -/
theorem padLeft_append_inj {width : Nat} {w w' rest rest' : Bytes} (hw : ∀ x ∈ w, x ≠ 32) (hw' : ∀ x ∈ w', x ≠ 32)
    (hne : w ≠ []) (hne' : w' ≠ []) (h : padLeft width 32 w ++ 32 :: rest = padLeft width 32 w' ++ 32 :: rest') :
    w = w' ∧ rest = rest' := by
  have hfill (k : Nat) : ∀ x ∈ List.replicate k (32 : UInt8), (x == 32) = true := by
    intro x hx
    simp [List.eq_of_mem_replicate hx]
  have hstop {w rest : Bytes} (hw : ∀ x ∈ w, x ≠ 32) (hne : w ≠ []) :
      ∀ x ∈ (w ++ rest).head?, (x == 32) = false := by
    cases w with
    | nil => exact absurd rfl hne
    | cons b w =>
      intro x hx
      cases hx
      simpa using hw b (.head w)
  have hclass {w : Bytes} (hw : ∀ x ∈ w, x ≠ 32) : ∀ x ∈ w, (x != 32) = true := by
    intro x hx
    simpa using hw x hx
  unfold padLeft at h
  rw [List.append_assoc, List.append_assoc] at h
  obtain ⟨-, hwords⟩ := run_append_inj (hfill _) (hfill _) (hstop hw hne) (hstop hw' hne') h
  obtain ⟨heq, hrest⟩ := run_append_inj (hclass hw) (hclass hw') (by simp) (by simp) hwords
  exact ⟨heq, (List.cons.inj hrest).2⟩

/-! ## Lines -/

def OneLine (b : Bytes) : Prop := newline ∉ b

instance (b : Bytes) : Decidable (OneLine b) := inferInstanceAs (Decidable (newline ∉ b))

def unlines (rows : List Bytes) : Bytes := rows.flatMap (· ++ [newline])

theorem unlines_inj {rows rows' : List Bytes} (h : ∀ row ∈ rows, OneLine row) (h' : ∀ row ∈ rows', OneLine row)
    (heq : unlines rows = unlines rows') : rows = rows' := by
  induction rows generalizing rows' with
  | nil =>
    cases rows' with
    | nil => rfl
    | cons row' rows' => simp [unlines] at heq
  | cons row rows ih =>
    cases rows' with
    | nil => simp [unlines] at heq
    | cons row' rows' =>
      have hclass {row : Bytes} (hrow : OneLine row) : ∀ x ∈ row, (x != newline) = true := by
        intro x hx
        rw [bne_iff_ne]
        rintro rfl
        exact hrow hx
      rw [List.forall_mem_cons] at h h'
      simp only [unlines, List.flatMap_cons, List.append_assoc] at heq
      obtain ⟨rfl, hrest⟩ := run_append_inj (hclass h.1) (hclass h'.1) (by simp) (by simp) heq
      rw [ih h.2 h'.2 (List.cons.inj hrest).2]

namespace OneLine

variable {b b' : Bytes}

theorem nil : OneLine [] := List.not_mem_nil

theorem append (h : OneLine b) (h' : OneLine b') : OneLine (b ++ b') := by
  unfold OneLine at *
  simp [h, h']

theorem cons {x : UInt8} (hx : x ≠ newline) (h : OneLine b) : OneLine (x :: b) := by
  unfold OneLine at *
  simp [h, hx.symm]

theorem of_sublist (h : OneLine b) (hs : b'.Sublist b) : OneLine b' := fun hm => h (hs.mem hm)

theorem replicate {x : UInt8} (hx : x ≠ newline) (n : Nat) : OneLine (List.replicate n x) :=
  fun hm => hx (List.eq_of_mem_replicate hm).symm

theorem flatMap {α : Type} {l : List α} {f : α → Bytes} (h : ∀ a ∈ l, OneLine (f a)) : OneLine (l.flatMap f) := by
  intro hm
  obtain ⟨a, ha, hf⟩ := List.mem_flatMap.mp hm
  exact h a ha hf

theorem decimal (n : Nat) : OneLine (decimal n) := by
  intro hm
  exact absurd (decimal_isDigit n newline hm) (by decide)

theorem integer (n : Int) : OneLine (integer n) := by
  cases n with
  | ofNat n => exact decimal n
  | negSucc n => exact cons (by decide) (decimal _)

theorem signed (n : Int) : OneLine (signed n) := by
  cases n with
  | ofNat n => exact cons (by decide) (decimal n)
  | negSucc n => exact cons (by decide) (decimal _)

theorem padLeft {fill : UInt8} (hf : fill ≠ newline) (width : Nat) (h : OneLine b) :
    OneLine (padLeft width fill b) :=
  (replicate hf _).append h

theorem padRight (width : Nat) (h : OneLine b) : OneLine (padRight width b) := h.append (replicate (by decide) _)

theorem zeroPadded (width : Nat) (n : Int) : OneLine (zeroPadded width n) := by
  cases n with
  | ofNat n => exact padLeft (by decide) width (decimal n)
  | negSucc n => exact cons (by decide) (padLeft (by decide) _ (decimal _))

theorem hexWith {write : Nat → UInt8} (hw : ∀ d < 16, write d ≠ newline) (width n : Nat) :
    OneLine (hexWith write width n) := by
  induction width generalizing n with
  | zero => exact nil
  | succ width ih => exact (ih (n / 16)).append (cons (hw _ (Nat.mod_lt n (by decide))) nil)

theorem hex (width n : Nat) : OneLine (hex width n) := hexWith (by decide) width n

theorem hexUpper (width n : Nat) : OneLine (hexUpper width n) := hexWith (by decide) width n

end OneLine

end Text

/-! ## Constants -/

/-- What constants are written with apart from digits and characters. -/
theorem Const.oneLine_marks : ∀ t ∈ [txt "NaN", txt "-Inf", txt "+Inf", txt ".0", txt "\\x", txt "\\u", txt "\\U",
    txt "<unsupported ", txt ">", txt "int64", txt "float64", txt "string", txt "int", txt "int32", txt "float32",
    txt "uint8", txt "bool", txt "<nil>"], Text.OneLine t := by
  decide +kernel

namespace Binary64

theorem oneLine_withPoint {rest : Bytes} (h : Text.OneLine rest) : Text.OneLine (withPoint rest) := by
  unfold withPoint
  by_cases he : rest.isEmpty = true
  · rw [if_pos he]
    exact .nil
  · rw [if_neg he]
    exact .cons (by decide) h

theorem oneLine_writeDecimal (l : Layout) (d : Decimal) : Text.OneLine (writeDecimal l d) := by
  have hdigits := Text.OneLine.decimal d.digits
  have htake (n : Nat) := hdigits.of_sublist (List.take_sublist n _)
  have hdrop (n : Nat) := oneLine_withPoint (hdigits.of_sublist (List.drop_sublist n _))
  unfold writeDecimal
  dsimp only
  split
  · unfold plain
    split
    · exact ((htake _).append (.replicate (by decide) _)).append (hdrop _)
    · exact .cons (by decide) (oneLine_withPoint (.append (.replicate (by decide) _) hdigits))
  · refine ((htake 1).append (hdrop 1)).append (.cons (by decide) (.cons ?_ ?_))
    · split <;> decide
    · exact .padLeft (by decide) _ (.decimal _)

theorem oneLine_text (x : Binary64) : Text.OneLine x.text := by
  unfold text
  split
  · exact Const.oneLine_marks _ (by simp)
  · split
    · split <;> exact Const.oneLine_marks _ (by simp)
    · dsimp only
      split
      · exact .cons (by decide) (oneLine_writeDecimal _ _)
      · exact oneLine_writeDecimal _ _

end Binary64

theorem Utf8.toNat_of_mem_encode {c : Char} {b : UInt8} (h : b ∈ String.utf8EncodeChar c) (hb : b.toNat < 128) :
    c.toNat = b.toNat := by
  have hlt := toNat_lt c
  have htail (n : Nat) : b ≠ tail n := by
    rintro rfl
    rw [toNat_tail] at hb
    omega
  have hlead {n : Nat} (hn : 128 ≤ n) (hn' : n < 256) : b ≠ UInt8.ofNat n := by
    rintro rfl
    rw [UInt8.toNat_ofNat_of_lt' hn'] at hb
    omega
  rw [encode_eq] at h
  split_ifs at h
  · rw [List.mem_singleton.mp h]
    exact (UInt8.toNat_ofNat_of_lt (show _ < 256 by omega)).symm
  · have hfirst := hlead (show 128 ≤ c.toNat / 64 % 32 + 192 by omega) (by omega)
    simp only [List.mem_cons, List.not_mem_nil, htail, hfirst, or_false] at h
  · have hfirst := hlead (show 128 ≤ c.toNat / 4096 % 16 + 224 by omega) (by omega)
    simp only [List.mem_cons, List.not_mem_nil, htail, hfirst, or_false] at h
  · have hfirst := hlead (show 128 ≤ c.toNat / 262144 % 8 + 240 by omega) (by omega)
    simp only [List.mem_cons, List.not_mem_nil, htail, hfirst, or_false] at h

namespace Text.Quoted

theorem oneLine_encode {c : Char} (h : c ≠ '\n') : OneLine (String.utf8EncodeChar c) := by
  intro hm
  exact h (Char.toNat_inj.mp (Utf8.toNat_of_mem_encode hm (by decide)))

theorem letter?_ne {c : Char} {l : UInt8} (h : letter? c = some l) : l ≠ newline := by
  unfold letter? at h
  split at h <;> cases h <;> decide

theorem oneLine_escape {mark : Char} (hmark : mark ≠ '\n') (c : Char) : OneLine (escape mark c) := by
  unfold escape
  by_cases hm : (decide (c = mark) || decide (c = '\\')) = true
  · rw [if_pos hm]
    refine .cons (by decide) (oneLine_encode ?_)
    rintro rfl
    simp [hmark.symm] at hm
  rw [if_neg hm]
  by_cases hp : isPrintable c = true
  · rw [if_pos hp]
    refine oneLine_encode ?_
    rintro rfl
    exact absurd hp (by decide +kernel)
  rw [if_neg hp]
  cases hl : letter? c with
  | some l => exact .cons (by decide) (.cons (letter?_ne hl) .nil)
  | none =>
    dsimp only
    split
    · exact .append (Const.oneLine_marks _ (by simp)) (.hex _ _)
    · split <;> exact .append (Const.oneLine_marks _ (by simp)) (.hex _ _)

theorem oneLine_quote (text : Bytes) : OneLine (quote text) := by
  refine .cons (by decide) (.append (.flatMap ?_) (by decide))
  intro cell _
  cases cell with
  | scalar c => exact oneLine_escape (by decide) c
  | stray b => exact .append (Const.oneLine_marks _ (by simp)) (.hex _ _)

end Text.Quoted

theorem Const.oneLine_render (k : Const) : Text.OneLine k.render := by
  cases k with
  | int v => exact .integer _
  | float x =>
    unfold render renderFloat
    dsimp only
    split
    · exact (Binary64.oneLine_text x).append (oneLine_marks _ (by simp))
    · exact Binary64.oneLine_text x
  | str s => exact Text.Quoted.oneLine_quote s

theorem PoolValue.oneLine_typeName (v : PoolValue) : Text.OneLine v.typeName := by
  unfold typeName
  split
  case h_10 type => exact type.oneLine
  all_goals exact Const.oneLine_marks _ (by simp)

theorem PoolValue.oneLine_render (v : PoolValue) : Text.OneLine v.render := by
  unfold render
  split
  · exact Const.oneLine_render _
  · exact .append (.append (Const.oneLine_marks _ (by simp)) (oneLine_typeName _)) (Const.oneLine_marks _ (by simp))

end RegCode
