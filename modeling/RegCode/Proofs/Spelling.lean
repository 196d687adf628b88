import RegCode.Proofs.Denotation
import Mathlib.Tactic.FieldSimp

/-!
# Numbers in digits

Every integer that is not negative, and every finite number that is not negative, has a numeral that reads back as
it. For a number of the binary format that is its exact value: a power of two below one has a finite decimal, of no
more digits than a numeral keeps, and a value that the format has is its own nearest one.
-/

namespace RegCode

/-! ## Digits -/

namespace Text

theorem isDigit_digit {d : Nat} (h : d < 10) : isDigit (digit d) = true := by
  revert d
  decide

theorem digitValue_digit {d : Nat} (h : d < 10) : Numeral.digitValue (digit d) = d := by
  revert d
  decide

theorem decimal_isDigit (n : Nat) : ∀ b ∈ decimal n, isDigit b = true := by
  induction n using Nat.strongRecOn with
  | ind n ih =>
    rw [decimal]
    split
    · rename_i h
      simpa using isDigit_digit h
    · intro b hb
      rcases List.mem_append.mp hb with hb | hb
      · exact ih (n / 10) (by omega) b hb
      · cases List.mem_singleton.mp hb
        exact isDigit_digit (Nat.mod_lt n (by decide))

theorem length_decimal_pos (n : Nat) : 0 < (decimal n).length := by
  rw [decimal]
  split <;> simp

theorem length_decimal_le {n k : Nat} (hk : 0 < k) (h : n < 10 ^ k) : (decimal n).length ≤ k := by
  induction n using Nat.strongRecOn generalizing k with
  | ind n ih =>
    rw [decimal]
    split
    · exact hk
    · rename_i h10
      obtain ⟨j, rfl⟩ : ∃ j, k = j + 1 := ⟨k - 1, by omega⟩
      have hj : 0 < j := by
        rcases Nat.eq_zero_or_pos j with rfl | hj
        · omega
        · exact hj
      rw [Nat.pow_succ] at h
      have := ih (n / 10) (by omega) hj (by omega)
      simpa using this

end Text

namespace Numeral

theorem ofDigits_decimal (n : Nat) : ofDigits (Text.decimal n) = n := by
  induction n using Nat.strongRecOn with
  | ind n ih =>
    rw [Text.decimal]
    split
    · rename_i h
      simp [ofDigits, Text.digitValue_digit h]
    · have hfront := ih (n / 10) (by omega)
      unfold ofDigits at hfront ⊢
      rw [List.foldl_append, hfront]
      simp only [List.foldl_cons, List.foldl_nil, Text.digitValue_digit (Nat.mod_lt n (by decide : 0 < 10))]
      omega

theorem ofDigits_append (as bs : Bytes) : ofDigits (as ++ bs) = ofDigits as * 10 ^ bs.length + ofDigits bs := by
  rw [ofDigits_eq_total, ofDigits_eq_total, ofDigits_eq_total, List.map_append, total_append, List.length_map]

theorem ofDigits_zeros (k : Nat) (ds : Bytes) : ofDigits (List.replicate k 48 ++ ds) = ofDigits ds := by
  induction k with
  | zero => rfl
  | succ k ih =>
    rw [← ih]
    rfl

theorem readInt64_decimal {n : Nat} (h : n < 0x8000000000000000) :
    readInt64 (Text.decimal n) = some (Int64.ofNat n) := by
  rw [readInt64_iff, Int64.toInt_ofNat_of_lt h]
  have hdigits := List.all_eq_true.mpr (Text.decimal_isDigit n)
  refine ⟨[], Text.decimal n, false, _, rfl, .none, forall₂_digit_iff.mpr ⟨hdigits, rfl⟩, ?_, ?_⟩
  · exact List.map_eq_nil_iff.not.mpr (List.ne_nil_of_length_pos (Text.length_decimal_pos n))
  · rw [← ofDigits_eq_total, ofDigits_decimal]
    rfl

/-! ## Decimals with a point -/

theorem run_digits {ds : Bytes} (h : ∀ b ∈ ds, Text.isDigit b = true) : Run 10 ds (ds.map digitValue) := by
  induction ds with
  | nil => exact .nil
  | cons b ds ih =>
    obtain ⟨hb, h⟩ := List.forall_mem_cons.mp h
    exact .digit (digit_ten_iff.mpr ⟨hb, rfl⟩) (ih h)

theorem separated_of_none {text : Bytes} (h : ∀ b ∈ text, b ≠ 95) : Separated 10 text where
  first hf := h 95 (List.mem_of_mem_head? hf) rfl
  last hl := h 95 (List.mem_of_getLast? hl) rfl
  chain := by
    induction text with
    | nil => exact .nil
    | cons a text ih =>
      obtain ⟨ha, h⟩ := List.forall_mem_cons.mp h
      cases text with
      | nil => exact .singleton a
      | cons b text =>
        refine List.isChain_cons_cons.mpr ⟨⟨fun h95 => absurd h95 ha, fun h95 => absurd h95 (h b (.head _))⟩, ih h⟩

/-- Digits, a point and digits, or no point, and at the end nothing or an exponent. -/
theorem readBinary64_parts {whole back frac tail : Bytes} {e : Int} {x : Binary64}
    (hw : ∀ b ∈ whole, Text.isDigit b = true) (hne : whole ≠ []) (hf : ∀ b ∈ frac, Text.isDigit b = true)
    (hback : back = [] ∧ frac = [] ∨ back = 46 :: frac) (ht : tail = [] ∧ e = 0 ∨ Power 101 tail e)
    (hnone : ∀ b ∈ tail, b ≠ 95)
    (hx : Binary64.IsNearest false (ofDigits (whole ++ frac) * 10 ^ (e - frac.length)) x) :
    readBinary64 (whole ++ back ++ tail) = some x := by
  have hpoint : Fraction 10 back (frac.map digitValue) := by
    rcases hback with ⟨rfl, rfl⟩ | rfl
    · exact .none
    · exact .point (run_digits hf)
  have hdigit {b : UInt8} (hb : Text.isDigit b = true) : b ≠ 95 := by
    rintro rfl
    cases hb
  have hsep : Separated 10 (whole ++ back ++ tail) := by
    refine separated_of_none fun b hb => ?_
    rcases List.mem_append.mp hb with hb | hb
    · rcases List.mem_append.mp hb with hb | hb
      · exact hdigit (hw b hb)
      · rcases hback with ⟨rfl, -⟩ | rfl
        · cases hb
        · rcases List.mem_cons.mp hb with rfl | hb
          · decide
          · exact hdigit (hf b hb)
    · exact hnone b hb
  have hspelled : Mantissa.Spelled 10 (whole ++ back ++ tail) (whole.map digitValue) (frac.map digitValue) tail :=
    ⟨whole, back, rfl, run_digits hw, hpoint, fun h => hne (List.map_eq_nil_iff.mp (List.append_eq_nil_iff.mp h).1)⟩
  rw [ofDigits_eq_total, List.map_append, ← List.length_map (f := digitValue)] at hx
  have h : Denotes ([] ++ (whole ++ back ++ tail)) x := .number .none (.decimal hsep hspelled ht) hx
  exact readBinary64_iff.mpr h

/-- The number `n / 10 ^ places` in decimal, with all its places. -/
def fixed (n places : Nat) : Bytes :=
  Text.decimal (n / 10 ^ places) ++ 46 :: Text.padLeft places 48 (Text.decimal (n % 10 ^ places))

theorem padLeft_isDigit {ds : Bytes} (h : ∀ b ∈ ds, Text.isDigit b = true) (k : Nat) :
    ∀ b ∈ Text.padLeft k 48 ds, Text.isDigit b = true := by
  intro b hb
  rcases List.mem_append.mp hb with hb | hb
  · rw [List.eq_of_mem_replicate hb]
    decide
  · exact h b hb

theorem readBinary64_fixed {n places : Nat} {x : Binary64} (hplaces : 0 < places)
    (hx : Binary64.IsNearest false (n / 10 ^ places) x) : readBinary64 (fixed n places) = some x := by
  have hlen : (Text.padLeft places 48 (Text.decimal (n % 10 ^ places))).length = places := by
    have hle := Text.length_decimal_le hplaces (Nat.mod_lt n (Nat.pow_pos (by decide : 0 < 10)))
    rw [Text.padLeft, List.length_append, List.length_replicate]
    omega
  have hval : ofDigits (Text.decimal (n / 10 ^ places) ++ Text.padLeft places 48 (Text.decimal (n % 10 ^ places))) =
      n := by
    rw [ofDigits_append, hlen, ofDigits_decimal, Text.padLeft, ofDigits_zeros, ofDigits_decimal]
    exact Nat.div_add_mod' n _
  rw [fixed, ← List.append_nil (_ ++ _)]
  refine readBinary64_parts (Text.decimal_isDigit _) (List.ne_nil_of_length_pos (Text.length_decimal_pos _))
    (padLeft_isDigit (Text.decimal_isDigit _) places) (.inr rfl) (.inl ⟨rfl, rfl⟩) (by simp) ?_
  rwa [hval, hlen, zero_sub, zpow_neg, zpow_natCast, ← div_eq_mul_inv]

end Numeral

/-! ## Values of the binary format -/

namespace Binary64

theorem floorLog2_lt_of {num den : Nat} (hn : 0 < num) (hd : 0 < den) {e : Int} (h : (num : ℚ) / den < 2 ^ e) :
    floorLog2 num den < e :=
  (zpow_lt_zpow_iff_right₀ (by norm_num)).mp (lt_of_le_of_lt (floorLog2_bounds hn hd).1 h)

theorem le_floorLog2_of {num den : Nat} (hn : 0 < num) (hd : 0 < den) {e : Int} (h : (2 : ℚ) ^ e ≤ num / den) :
    e ≤ floorLog2 num den :=
  Int.lt_add_one_iff.mp ((zpow_lt_zpow_iff_right₀ (by norm_num)).mp (lt_of_le_of_lt h (floorLog2_bounds hn hd).2))

section
variable {x : Binary64}

/-- Not negative, and neither infinite nor undefined. -/
def isPlain (x : Binary64) : Bool := !x.isNegative && !x.isInfinite && !x.isNaN

theorem word_lt_of_isPlain (h : x.isPlain = true) : x.word < infiniteWord := by
  simp only [isPlain, Bool.and_eq_true, Bool.not_eq_true'] at h
  obtain ⟨⟨hneg, hinf⟩, hnan⟩ := h
  have hneg' : x.word < signBit := Nat.not_le.mp (of_decide_eq_false hneg)
  have hnan' : x.magnitude ≤ infiniteWord := Nat.not_lt.mp (of_decide_eq_false hnan)
  have hinf' : x.magnitude ≠ infiniteWord := beq_eq_false_iff_ne.mp hinf
  rw [magnitude, Nat.mod_eq_of_lt hneg'] at hnan' hinf'
  omega

theorem signed_word (x : Binary64) : signed false x.word = x := by
  simp [signed, ofWord, word]

structure Fields (x : Binary64) : Prop where
  lt : x.significand < 2 ^ 53
  normal : 2 ^ 52 ≤ x.significand ∨ x.scale = -1074
  lowest : -1074 ≤ x.scale
  highest : x.scale ≤ 971
  word : (x.scale + 1074).toNat * hiddenBit + x.significand = x.word

theorem fields_of_word_lt (h : x.word < infiniteWord) : x.Fields := by
  have hmag : x.magnitude = x.word := Nat.mod_eq_of_lt (Nat.lt_trans h (by decide))
  have hexp : x.exponentField < 2047 := by
    simp only [exponentField, hmag, hiddenBit]
    simp only [infiniteWord] at h
    omega
  have hfrac : x.fraction < 2 ^ 52 := Nat.mod_lt _ (by decide)
  have hsplit : x.exponentField * hiddenBit + x.fraction = x.word := by
    rw [exponentField, hmag, fraction]
    exact Nat.div_add_mod' _ _
  by_cases he : x.exponentField = 0
  · have hscale : x.scale = -1074 := by simp [scale, he]
    have hsig : x.significand = x.fraction := by rw [significand, if_pos he]
    rw [he, Nat.zero_mul, Nat.zero_add] at hsplit
    refine ⟨by omega, .inr hscale, by omega, by omega, ?_⟩
    rw [hscale, hsig]
    simpa using hsplit
  · have hscale : x.scale = (x.exponentField : Int) - 1075 := by
      rw [scale, Nat.max_eq_left (Nat.one_le_iff_ne_zero.mpr he)]
    have hsig : x.significand = 2 ^ 52 + x.fraction := by
      rw [significand, if_neg he]
      rfl
    refine ⟨by omega, .inl (by omega), by omega, by omega, ?_⟩
    have htoNat : (x.scale + 1074).toNat = x.exponentField - 1 := by omega
    rw [htoNat, hsig, ← hsplit]
    simp only [hiddenBit]
    omega

/-- The exact value of a finite number that is not negative. -/
def numeral (x : Binary64) : Bytes :=
  match x.scale with
  | .ofNat q => Numeral.fixed (x.significand * 2 ^ q * 10) 1
  | .negSucc q => Numeral.fixed (x.significand * 5 ^ (q + 1)) (q + 1)

/-- The exact magnitude of a finite number. -/
def value (x : Binary64) : ℚ := x.significand * 2 ^ x.scale

theorem Fields.place (h : x.Fields) : ∃ e : Nat, x.scale = (e : Int) - 1074 ∧ x.word = e * 2 ^ 52 + x.significand ∧
    (2 ^ 52 ≤ x.significand ∨ e = 0) := by
  obtain ⟨e, he⟩ : ∃ e : Nat, x.scale = (e : Int) - 1074 := ⟨(x.scale + 1074).toNat, by have := h.lowest; omega⟩
  have hword := h.word
  rw [he, show ((e : Int) - 1074 + 1074).toNat = e by omega] at hword
  exact ⟨e, he, hword.symm, h.normal.imp_right fun h => by omega⟩

theorem amount_word (h : x.word < infiniteWord) : amount x.word = x.value := by
  have hf := fields_of_word_lt h
  obtain ⟨e, hscale, hword, hplace⟩ := hf.place
  rw [hword, amount_place (Nat.le_of_lt hf.lt) hplace, value, hscale]

theorem Between.isNearest {r : ℚ} (hb : Between r x.word) (h : x.word < infiniteWord) : IsNearest false r x :=
  ⟨x.word, hb.rounds h, (signed_word x).symm⟩

theorem between_amount (w : Nat) : Between (amount w) w where
  low v hv := by
    subst hv
    exact (middle_lt_amount_succ v).le
  high := (amount_lt_middle w).le
  odd _ := by
    refine ⟨fun v hv => ?_, amount_lt_middle w⟩
    subst hv
    exact middle_lt_amount_succ v

/-- A value of the format is the nearest one to itself. -/
theorem isNearest_value (h : x.word < infiniteWord) : IsNearest false x.value x := by
  rw [← amount_word h]
  exact (between_amount x.word).isNearest h

theorem nearest_amount (negative : Bool) {num den w : Nat} (hd : 0 < den) (hw : w < infiniteWord)
    (hv : (num : ℚ) / den = amount w) : nearest negative num den = signed negative w := by
  refine ((nearest_iff negative num hd _).mpr ⟨w, ?_, rfl⟩).1
  rw [hv]
  exact (between_amount w).rounds hw

theorem readBinary64_numeral (h : x.word < infiniteWord) : Numeral.readBinary64 x.numeral = some x := by
  have hx := isNearest_value h
  unfold value at hx
  unfold numeral
  split
  · -- the number is an integer
    rename_i q hq
    refine Numeral.readBinary64_fixed Nat.one_pos ?_
    rw [hq, Int.ofNat_eq_natCast, zpow_natCast] at hx
    push_cast
    rwa [pow_one, mul_div_cancel_right₀ _ (by norm_num)]
  · -- it has as many places as twos in its denominator
    rename_i j hj
    refine Numeral.readBinary64_fixed (Nat.succ_pos j) ?_
    rw [hj, zpow_negSucc, ← div_eq_mul_inv] at hx
    push_cast
    rwa [show (10 : ℚ) = 2 * 5 by norm_num, mul_pow, mul_div_mul_right _ _ (by positivity)]

end

end Binary64

end RegCode
