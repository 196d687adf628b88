import RegCode.Number.Numeral
import RegCode.Proofs.Rounding
import Mathlib.Data.List.Infix
import Mathlib.Data.Nat.Digits.Defs

/-!
# What numerals stand for

An integer is a sign and digits. A number with a fraction is a sign, digits with a point among them and an exponent,
all of it in decimal, or behind `0x` in hexadecimal, where the exponent is one of two; underscores may stand between
digits. It stands for the number of the format that is nearest to its exact value, of however many digits. Reading
finds just that: the digits that are not kept do not matter, because no middle of two numbers of the format has as
many digits as are kept.
-/

namespace RegCode.Numeral

/-! ## Digits -/

inductive Digit (radix : Nat) : UInt8 → Nat → Prop where
  | figure {b : UInt8} : 48 ≤ b.toNat → b.toNat ≤ 57 → Digit radix b (b.toNat - 48)
  | small {b : UInt8} : 97 ≤ b.toNat → b.toNat < 87 + radix → Digit radix b (b.toNat - 87)
  | capital {b : UInt8} : 65 ≤ b.toNat → b.toNat < 55 + radix → Digit radix b (b.toNat - 55)

/-- The value of digits, the first of which is the highest. -/
def total (radix : Nat) (ds : List Nat) : Nat := Nat.ofDigits radix ds.reverse

/-- Digits, with underscores passed over. -/
inductive Run (radix : Nat) : Bytes → List Nat → Prop where
  | nil : Run radix [] []
  | underscore {text ds} : Run radix text ds → Run radix (95 :: text) ds
  | digit {b d text ds} : Digit radix b d → Run radix text ds → Run radix (b :: text) (d :: ds)

def Adjoins (radix : Nat) (a b : UInt8) : Prop :=
  (a = 95 → ∃ d, Digit radix b d) ∧ (b = 95 → ∃ d, Digit radix a d)

/-- Every underscore stands between two digits. -/
structure Separated (radix : Nat) (text : Bytes) : Prop where
  first : text.head? ≠ some 95
  last : text.getLast? ≠ some 95
  chain : List.IsChain (Adjoins radix) text

inductive Sign : Bytes → Bool → Prop where
  | none : Sign [] false
  | plus : Sign [43] false
  | minus : Sign [45] true

/-! ## Numerals -/

def IsInteger (text : Bytes) (v : Int) : Prop :=
  ∃ sign digits negative ds, text = sign ++ digits ∧ Sign sign negative ∧ List.Forall₂ (Digit 10) digits ds ∧
    ds ≠ [] ∧ v = if negative then -(total 10 ds : Int) else total 10 ds

/-- The exponent in decimal digits grows no more once it has come to ten thousand. -/
def exponent (ds : List Nat) : Nat :=
  ((ds.inits.map (total 10)).find? (10000 ≤ ·)).getD (total 10 ds)

inductive Exponent : Bytes → Int → Prop where
  | mk {sign negative b rest ds} : Sign sign negative → b ≠ 95 → Run 10 (b :: rest) ds →
      Exponent (sign ++ b :: rest) (if negative then -(exponent ds : Int) else exponent ds)

def Letter (letter b : UInt8) : Prop := b = letter ∨ b.toNat + 32 = letter.toNat

inductive Power (mark : UInt8) : Bytes → Int → Prop where
  | mk {b rest e} : Letter mark b → Exponent rest e → Power mark (b :: rest) e

inductive Fraction (radix : Nat) : Bytes → List Nat → Prop where
  | none : Fraction radix [] []
  | point {text ds} : Run radix text ds → Fraction radix (46 :: text) ds

/-- The digits in front of the point and behind it, and what follows them. -/
def Mantissa.Spelled (radix : Nat) (text : Bytes) (whole frac : List Nat) (tail : Bytes) : Prop :=
  ∃ front back, text = front ++ back ++ tail ∧ Run radix front whole ∧ Fraction radix back frac ∧ whole ++ frac ≠ []

/-- The exact value of a number without its sign. The prefix of a hexadecimal one counts as a digit in front of an
underscore. -/
inductive Magnitude : Bytes → ℚ → Prop where
  | decimal {text whole frac tail e} : Separated 10 text → Mantissa.Spelled 10 text whole frac tail →
      tail = [] ∧ e = 0 ∨ Power 101 tail e → Magnitude text (total 10 (whole ++ frac) * 10 ^ (e - frac.length))
  | hexadecimal {x text whole frac tail e} : Letter 120 x → Separated 16 (48 :: text) →
      Mantissa.Spelled 16 text whole frac tail → Power 112 tail e →
      Magnitude (48 :: x :: text) (total 16 (whole ++ frac) * 2 ^ (e - 4 * frac.length))

def Named (name text : Bytes) : Prop := List.Forall₂ Letter name text

/-- The number of the format that a numeral stands for. -/
inductive Denotes : Bytes → Binary64 → Prop where
  | number {sign negative text r x} : Sign sign negative → Magnitude text r → Binary64.IsNearest negative r x →
      Denotes (sign ++ text) x
  | infinite {sign negative text} : Sign sign negative →
      Named [105, 110, 102] text ∨ Named [105, 110, 102, 105, 110, 105, 116, 121] text →
      Denotes (sign ++ text) ⟨if negative then 0xFFF0000000000000 else 0x7FF0000000000000⟩
  | notANumber {text} : Named [110, 97, 110] text → Denotes text ⟨0x7FF8000000000001⟩

/-! ## Reading digits -/

theorem isDigit_iff {b : UInt8} : Text.isDigit b = true ↔ 48 ≤ b.toNat ∧ b.toNat ≤ 57 := by
  simp [Text.isDigit, UInt8.le_iff_toNat_le]

theorem toNat_toLower (b : UInt8) :
    (toLower b).toNat = if 65 ≤ b.toNat ∧ b.toNat ≤ 90 then b.toNat + 32 else b.toNat := by
  unfold toLower
  by_cases h : 65 ≤ b.toNat ∧ b.toNat ≤ 90
  · rw [if_pos h, if_pos (by simpa [UInt8.le_iff_toNat_le] using h), UInt8.toNat_add]
    exact Nat.mod_eq_of_lt (by change b.toNat + 32 < 256; omega)
  · rw [if_neg h, if_neg (by simpa [UInt8.le_iff_toNat_le] using h)]

theorem value?_iff {base : Base} {b : UInt8} {d : Nat} : base.value? b = some d ↔ Digit base.radix b d := by
  have hlower := toNat_toLower b
  unfold Base.value? digitValue
  by_cases hd : Text.isDigit b = true
  · rw [if_pos hd, Option.some.injEq]
    obtain ⟨h48, h57⟩ := isDigit_iff.mp hd
    constructor
    · rintro rfl
      exact .figure h48 h57
    · intro h
      cases h <;> omega
  rw [if_neg hd]
  rw [isDigit_iff] at hd
  cases base with
  | ten =>
    simp only [Base.radix, reduceCtorEq, decide_false, Bool.false_and, Bool.false_eq_true, if_false, false_iff]
    intro h
    cases h <;> omega
  | sixteen =>
    simp only [Base.radix, decide_true, Bool.true_and, Bool.and_eq_true, decide_eq_true_eq, UInt8.le_iff_toNat_le,
      UInt8.reduceToNat]
    constructor
    · intro h
      split at h
      · rename_i hl
        cases h
        split at hlower
        · rw [hlower, show b.toNat + 32 - 87 = b.toNat - 55 by omega]
          exact .capital (by omega) (by omega)
        · rw [hlower]
          exact .small (by omega) (by omega)
      · cases h
    · intro h
      cases h with
      | figure h₁ h₂ => omega
      | small h₁ h₂ =>
        rw [if_neg (by omega)] at hlower
        rw [if_pos (by omega), hlower]
      | capital h₁ h₂ =>
        rw [if_pos (by omega)] at hlower
        rw [if_pos (by omega), hlower]
        exact congrArg some (by omega)

@[simp] theorem total_nil (radix : Nat) : total radix [] = 0 := rfl

theorem total_concat (radix : Nat) (ds : List Nat) (d : Nat) :
    total radix (ds ++ [d]) = total radix ds * radix + d := by
  rw [total, List.reverse_append, List.reverse_singleton, List.singleton_append, Nat.ofDigits_cons, total]
  ring

theorem total_append (radix : Nat) (as bs : List Nat) :
    total radix (as ++ bs) = total radix as * radix ^ bs.length + total radix bs := by
  rw [total, List.reverse_append, Nat.ofDigits_append, List.length_reverse, total, total]
  ring

theorem total_cons (radix d : Nat) (ds : List Nat) :
    total radix (d :: ds) = d * radix ^ ds.length + total radix ds := by
  rw [← List.singleton_append, total_append]
  simp [total]

theorem digit_ten_iff {b : UInt8} {d : Nat} : Digit 10 b d ↔ Text.isDigit b = true ∧ d = digitValue b := by
  rw [← show Base.ten.value? b = some d ↔ Digit 10 b d from value?_iff, Base.value?]
  split
  · simp [*, eq_comm]
  · simp [*]

theorem forall₂_digit_iff {text : Bytes} {ds : List Nat} :
    List.Forall₂ (Digit 10) text ds ↔ text.all Text.isDigit = true ∧ ds = text.map digitValue := by
  induction text generalizing ds with
  | nil => simp
  | cons b text ih =>
    rw [List.forall₂_cons_left_iff]
    simp only [digit_ten_iff, ih, List.all_cons, Bool.and_eq_true, List.map_cons]
    constructor
    · rintro ⟨d, ds', ⟨hb, rfl⟩, ⟨ht, rfl⟩, rfl⟩
      exact ⟨⟨hb, ht⟩, rfl⟩
    · rintro ⟨⟨hb, ht⟩, rfl⟩
      exact ⟨_, _, ⟨hb, rfl⟩, ⟨ht, rfl⟩, rfl⟩

theorem ofDigits_eq_total (text : Bytes) : ofDigits text = total 10 (text.map digitValue) := by
  induction text using List.reverseRecOn with
  | nil => rfl
  | append_singleton text b ih =>
    rw [List.map_append, List.map_singleton, total_concat, ← ih]
    unfold ofDigits
    rw [List.foldl_append, List.foldl_cons, List.foldl_nil]

/-! ## Signs and integers -/

theorem sign_splitSign (text : Bytes) :
    ∃ sign, Sign sign (splitSign text).1 ∧ text = sign ++ (splitSign text).2 := by
  unfold splitSign
  split
  · exact ⟨[43], .plus, rfl⟩
  · exact ⟨[45], .minus, rfl⟩
  · exact ⟨[], .none, rfl⟩

theorem splitSign_append {sign rest : Bytes} {negative : Bool} (hs : Sign sign negative)
    (hplus : rest.head? ≠ some 43) (hminus : rest.head? ≠ some 45) :
    splitSign (sign ++ rest) = (negative, rest) := by
  cases hs with
  | plus => rfl
  | minus => rfl
  | none =>
    unfold splitSign
    split
    · rename_i heq
      rw [show rest = _ from heq] at hplus
      exact absurd rfl hplus
    · rename_i heq
      rw [show rest = _ from heq] at hminus
      exact absurd rfl hminus
    · rfl

theorem ofDigits_dropWhile (ds : Bytes) : ofDigits (ds.dropWhile (· = 48)) = ofDigits ds := by
  induction ds with
  | nil => rfl
  | cons b ds ih =>
    rw [List.dropWhile_cons]
    split
    · rename_i h
      cases of_decide_eq_true h
      exact ih
    · rfl

theorem pow_le_ofDigits {text : Bytes} {k : Nat} (h : text.all Text.isDigit = true)
    (hk : k < (text.dropWhile (· = 48)).length) : 10 ^ k ≤ ofDigits text := by
  rw [← ofDigits_dropWhile]
  have hsub : ∀ b ∈ text.dropWhile (· = 48), Text.isDigit b = true := fun b hb =>
    List.all_eq_true.mp h b ((List.dropWhile_sublist _).mem hb)
  have hhead := List.head?_dropWhile_not (fun b : UInt8 => decide (b = 48)) text
  cases hd : text.dropWhile (· = 48) with
  | nil =>
    rw [hd] at hk
    exact absurd hk (Nat.not_lt_zero k)
  | cons b ds =>
    rw [hd] at hk hsub hhead
    have hb : b ≠ 48 := by simpa using hhead
    have hdigit := isDigit_iff.mp (hsub b (.head _))
    have hpos : 1 ≤ digitValue b := by
      have : b.toNat ≠ 48 := fun h48 => hb (UInt8.toNat_inj.mp h48)
      unfold digitValue
      omega
    rw [ofDigits_eq_total, List.map_cons, total_cons, List.length_map]
    calc 10 ^ k ≤ 1 * 10 ^ ds.length := by
          rw [Nat.one_mul]
          exact Nat.pow_le_pow_right (by decide) (Nat.le_of_lt_succ hk)
      _ ≤ digitValue b * 10 ^ ds.length := Nat.mul_le_mul_right _ hpos
      _ ≤ _ := Nat.le_add_right ..

theorem head?_ne_of_isDigit {text : Bytes} (h : text.all Text.isDigit = true) {b : UInt8}
    (hb : Text.isDigit b = false) :
    text.head? ≠ some b := by
  cases text with
  | nil => simp
  | cons c text =>
    rintro ⟨⟩
    rw [List.all_cons, hb] at h
    cases h

theorem ofMagnitude_iff {negative : Bool} {n : Nat} {v : Int64} :
    (if negative then if n ≤ 0x8000000000000000 then some (Int64.ofInt (-n)) else none
      else if n < 0x8000000000000000 then some (Int64.ofNat n) else none) = some v ↔
    v.toInt = if negative then -(n : Int) else n := by
  have hlow : -0x8000000000000000 ≤ v.toInt := v.le_toInt
  have hhigh : v.toInt < 0x8000000000000000 := v.toInt_lt
  cases negative with
  | false =>
    simp only [Bool.false_eq_true, if_false]
    split
    · rename_i h
      rw [Option.some.injEq, ← Int64.toInt_inj, Int64.toInt_ofNat_of_lt h, eq_comm]
    · rename_i h
      simp only [reduceCtorEq, false_iff]
      omega
  | true =>
    simp only [if_true]
    split
    · rename_i h
      rw [Option.some.injEq, ← Int64.toInt_inj, Int64.toInt_ofInt_of_le (by omega) (by omega), eq_comm]
    · rename_i h
      simp only [reduceCtorEq, false_iff]
      omega

theorem readInt64_iff {text : Bytes} {v : Int64} : readInt64 text = some v ↔ IsInteger text v.toInt := by
  unfold readInt64
  constructor
  · intro h
    obtain ⟨sign, hs, htext⟩ := sign_splitSign text
    revert h hs htext
    cases splitSign text with | mk negative digits =>
    intro h hs htext
    dsimp only at h
    split at h
    · cases h
    · rename_i hc
      rw [ofDigits_dropWhile, ofMagnitude_iff, ofDigits_eq_total] at h
      simp only [Bool.or_eq_true, not_or, Bool.not_eq_true', Bool.not_eq_false, List.isEmpty_iff] at hc
      obtain ⟨⟨hne, hall⟩, -⟩ := hc
      exact ⟨sign, digits, negative, _, htext, hs, forall₂_digit_iff.mpr ⟨hall, rfl⟩, by simpa using hne, h⟩
  · rintro ⟨sign, digits, negative, ds, rfl, hs, hds, hne, hv⟩
    obtain ⟨hall, rfl⟩ := forall₂_digit_iff.mp hds
    rw [splitSign_append hs (head?_ne_of_isDigit hall (by decide)) (head?_ne_of_isDigit hall (by decide))]
    dsimp only
    rw [← ofDigits_eq_total] at hv
    rw [if_neg ?_, ofDigits_dropWhile, ofMagnitude_iff]
    · exact hv
    · simp only [Bool.or_eq_true, not_or, Bool.not_eq_true', Bool.not_eq_false, List.isEmpty_iff, decide_eq_true_eq]
      refine ⟨⟨by simpa using hne, hall⟩, fun hlong => ?_⟩
      -- so many digits come to more than any integer of 64 bits
      have hlarge : 10 ^ 19 ≤ ofDigits digits := pow_le_ofDigits hall hlong
      have hlow : -0x8000000000000000 ≤ v.toInt := v.le_toInt
      have hhigh : v.toInt < 0x8000000000000000 := v.toInt_lt
      split at hv <;> omega

/-! ## Underscores -/

section
variable {base : Base} {b : UInt8}

theorem isSome_value?_iff : (base.value? b).isSome = true ↔ ∃ d, Digit base.radix b d := by
  rw [Option.isSome_iff_exists]
  exact exists_congr fun d => value?_iff

theorem Digit.ne_underscore {d : Nat} (h : Digit base.radix b d) : b ≠ 95 := by
  rintro rfl
  have h := value?_iff.mpr h
  cases base <;> cases h

theorem underscoresFit_cons {seen : Before} {c : UInt8} (text : Bytes)
    (hdigit : seen = .digit ↔ ∃ d, Digit base.radix c d) (hunder : seen = .underscore ↔ c = 95) :
    underscoresFit base seen text = true ↔
      List.IsChain (Adjoins base.radix) (c :: text) ∧ (c :: text).getLast? ≠ some 95 := by
  induction text generalizing seen c with
  | nil => simp [underscoresFit, hunder]
  | cons b text ih =>
    rw [List.isChain_cons_cons, List.getLast?_cons_cons, underscoresFit, and_assoc]
    by_cases hb : (base.value? b).isSome = true
    · have hb' := isSome_value?_iff.mp hb
      obtain ⟨d, hd⟩ := id hb'
      have hadj : Adjoins base.radix c b := ⟨fun _ => hb', fun h => absurd h hd.ne_underscore⟩
      rw [if_pos hb, ih (iff_of_true rfl hb') (iff_of_false (by decide) hd.ne_underscore)]
      exact (and_iff_right hadj).symm
    · have hb' := fun h => hb (isSome_value?_iff.mpr h)
      rw [if_neg hb]
      by_cases h95 : b = 95
      · subst h95
        have hadj : Adjoins base.radix c 95 ↔ seen = .digit := by
          rw [hdigit]
          refine ⟨fun h => h.2 rfl, fun h => ⟨fun hc => ?_, fun _ => h⟩⟩
          obtain ⟨d, hd⟩ := h
          exact absurd hc hd.ne_underscore
        rw [if_pos rfl, Bool.and_eq_true, beq_iff_eq, hadj, ih (iff_of_false (by decide) hb') (iff_of_true rfl rfl)]
      · have hadj : Adjoins base.radix c b ↔ seen ≠ .underscore := by
          rw [ne_eq, hunder]
          exact ⟨fun h hc => hb' (h.1 hc), fun h => ⟨fun hc => absurd hc h, fun hc => absurd hc h95⟩⟩
        rw [if_neg h95, Bool.and_eq_true, bne_iff_ne, hadj,
          ih (iff_of_false (by decide) hb') (iff_of_false (by decide) h95)]

theorem separated_prefixed (text : Bytes) :
    underscoresFit base .digit text = true ↔ Separated base.radix (48 :: text) := by
  have h48 : Digit base.radix 48 0 := .figure (by decide) (by decide)
  rw [underscoresFit_cons text (iff_of_true rfl ⟨0, h48⟩) (iff_of_false (by decide) (by decide))]
  exact ⟨fun h => ⟨by simp, h.2, h.1⟩, fun h => ⟨h.chain, h.last⟩⟩

theorem separated_iff (text : Bytes) : underscoresFit base .nothing text = true ↔ Separated base.radix text := by
  cases text with
  | nil => exact iff_of_true rfl ⟨by simp, by simp, .nil⟩
  | cons b text =>
    rw [underscoresFit]
    by_cases hb : (base.value? b).isSome = true
    · obtain ⟨d, hd⟩ := isSome_value?_iff.mp hb
      rw [if_pos hb, underscoresFit_cons text (iff_of_true rfl ⟨d, hd⟩) (iff_of_false (by decide) hd.ne_underscore)]
      exact ⟨fun h => ⟨by simpa using hd.ne_underscore, h.2, h.1⟩, fun h => ⟨h.chain, h.last⟩⟩
    · rw [if_neg hb]
      have hb' := fun h => hb (isSome_value?_iff.mpr h)
      by_cases h95 : b = 95
      · rw [if_pos h95]
        exact iff_of_false (by simp) fun h => h.first (by rw [h95]; rfl)
      · rw [if_neg h95, Bool.and_eq_true,
          underscoresFit_cons text (iff_of_false (by decide) hb') (iff_of_false (by decide) h95)]
        exact ⟨fun h => ⟨by simpa using h95, h.2.2, h.2.1⟩, fun h => ⟨rfl, h.chain, h.last⟩⟩

end

/-! ## Exponents -/

theorem readExponentDigits_iff {text : Bytes} {e e' : Nat} : readExponentDigits e text = (e', []) ↔
    ∃ ds, Run 10 text ds ∧ e' = ds.foldl (fun e d => if e < exponentCap then e * 10 + d else e) e := by
  induction text generalizing e with
  | nil =>
    constructor
    · rintro ⟨⟩
      exact ⟨[], .nil, rfl⟩
    · rintro ⟨ds, ⟨⟩, rfl⟩
      rfl
  | cons b text ih =>
    rw [readExponentDigits]
    constructor
    · intro h
      split at h
      · rename_i hb
        obtain ⟨ds, hds, rfl⟩ := ih.mp h
        exact ⟨_ :: ds, .digit (digit_ten_iff.mpr ⟨hb, rfl⟩) hds, rfl⟩
      · split at h
        · rename_i h95
          obtain ⟨ds, hds, rfl⟩ := ih.mp h
          exact ⟨ds, h95 ▸ .underscore hds, rfl⟩
        · cases h
    · rintro ⟨ds, hds, rfl⟩
      cases hds with
      | underscore hds =>
        rw [if_neg (by decide), if_pos rfl, ih]
        exact ⟨ds, hds, rfl⟩
      | digit hd hds =>
        obtain ⟨hb, rfl⟩ := digit_ten_iff.mp hd
        rw [if_pos hb, ih]
        exact ⟨_, hds, rfl⟩

theorem foldl_exponent (ds : List Nat) :
    ds.foldl (fun e d => if e < exponentCap then e * 10 + d else e) 0 = exponent ds := by
  induction ds using List.reverseRecOn with
  | nil => rfl
  | append_singleton ds d ih =>
    rw [List.foldl_append, List.foldl_cons, List.foldl_nil, ih]
    unfold exponent
    rw [List.inits_append, List.map_append, List.find?_append]
    cases hf : (ds.inits.map (total 10)).find? (10000 ≤ ·) with
    | some e =>
      have hfound := List.find?_some hf
      have he : exponentCap ≤ e := of_decide_eq_true hfound
      rw [Option.some_or, Option.getD_some, Option.getD_some, if_neg (Nat.not_lt.mpr he)]
    | none =>
      have he : total 10 ds < exponentCap := by
        have h := List.find?_eq_none.mp hf (total 10 ds)
          (List.mem_map_of_mem ((List.mem_inits _ _).mpr List.prefix_rfl))
        exact Nat.not_le.mp fun hle => h (decide_eq_true hle)
      rw [Option.getD_none, if_pos he, ← total_concat, Option.none_or]
      simp only [List.inits, List.tail_cons, List.map_cons, List.map_nil, List.find?_cons]
      split <;> rfl

theorem Run.head_isDigit {b : UInt8} {rest : Bytes} {ds : List Nat} (h : Run 10 (b :: rest) ds) (hb : b ≠ 95) :
    Text.isDigit b = true := by
  cases h with
  | underscore => exact absurd rfl hb
  | digit hd => exact (digit_ten_iff.mp hd).1

theorem readExponent_iff {text : Bytes} {e : Int} : readExponent text = some (e, []) ↔ Exponent text e := by
  constructor
  · intro h
    obtain ⟨sign, hs, htext⟩ := sign_splitSign text
    unfold readExponent at h
    revert h hs htext
    cases splitSign text with | mk negative rest =>
    intro h hs htext
    dsimp only at h hs htext
    subst htext
    cases rest with
    | nil => cases h
    | cons b rest =>
      dsimp only at h
      split at h
      · rename_i hb
        cases hr : readExponentDigits 0 (b :: rest) with
        | mk n rest' =>
          rw [hr] at h
          cases h
          obtain ⟨ds, hds, rfl⟩ := readExponentDigits_iff.mp hr
          rw [foldl_exponent]
          exact .mk hs (fun h95 => by rw [h95] at hb; cases hb) hds
      · cases h
  · rintro ⟨hs, h95, hds⟩
    rename_i sign negative b rest ds
    have hb := hds.head_isDigit h95
    have hread : readExponentDigits 0 (b :: rest) = (exponent ds, []) := by
      rw [readExponentDigits_iff]
      exact ⟨ds, hds, (foldl_exponent ds).symm⟩
    unfold readExponent
    rw [splitSign_append hs (by rintro ⟨⟩; cases hb) (by rintro ⟨⟩; cases hb)]
    dsimp only
    rw [if_pos hb, hread]

/-! ## Digits and a point -/

theorem Digit.ne_point {radix : Nat} {b : UInt8} {d : Nat} (h : Digit radix b d) : b ≠ 46 := by
  rintro rfl
  cases h <;> contradiction

theorem Digit.lt {base : Base} {b : UInt8} {d : Nat} (h : Digit base.radix b d) : d < base.radix := by
  have hradix : 10 ≤ base.radix := by cases base <;> decide
  cases h <;> omega

theorem Run.lt {base : Base} {text : Bytes} {ds : List Nat} (h : Run base.radix text ds) :
    ∀ d ∈ ds, d < base.radix := by
  induction h with
  | nil => exact fun d hd => absurd hd List.not_mem_nil
  | underscore _ ih => exact ih
  | digit hd _ ih => exact List.forall_mem_cons.mpr ⟨hd.lt, ih⟩

namespace Mantissa

section
variable {base : Base} {m m' : Mantissa} {d n places : Nat} {ds : List Nat} {text rest : Bytes}

theorem read_run (h : Run base.radix text ds) (m : Mantissa) (rest : Bytes) :
    m.read base (text ++ rest) = (ds.foldl (push base) m).read base rest := by
  induction h generalizing m with
  | nil => rfl
  | underscore _ ih =>
    rw [List.cons_append, read, if_pos rfl]
    exact ih m
  | digit hd _ ih =>
    rw [List.cons_append, read, if_neg hd.ne_underscore, if_neg hd.ne_point, value?_iff.mpr hd]
    exact ih _

@[simp] theorem point_push : (m.push base d).point = m.point := by
  unfold push
  dsimp only
  split
  · split <;> rfl
  · split <;> rfl

theorem started_push : (m.push base d).started = true := by
  unfold push
  dsimp only
  split
  · split <;> rfl
  · split <;> rfl

theorem run_of_read (h : m.read base text = (m', rest)) : ∃ front whole, Run base.radix front whole ∧
    (text = front ++ rest ∧ m' = whole.foldl (push base) m ∨
      m.point = false ∧ ∃ back frac, Run base.radix back frac ∧ text = front ++ 46 :: back ++ rest ∧
        m' = frac.foldl (push base) { whole.foldl (push base) m with point := true }) := by
  induction text generalizing m with
  | nil =>
    cases h
    exact ⟨[], [], .nil, .inl ⟨rfl, rfl⟩⟩
  | cons b text ih =>
    rw [read] at h
    split at h
    · rename_i h95
      subst h95
      obtain ⟨front, whole, hrun, hcase⟩ := ih h
      refine ⟨95 :: front, whole, .underscore hrun, hcase.imp ?_ ?_⟩
      · rintro ⟨rfl, hm⟩
        exact ⟨rfl, hm⟩
      · rintro ⟨hp, back, frac, hback, rfl, hm⟩
        exact ⟨hp, back, frac, hback, rfl, hm⟩
    · split at h
      · rename_i h46
        subst h46
        split at h
        · cases h
          exact ⟨[], [], .nil, .inl ⟨rfl, rfl⟩⟩
        · rename_i hp
          obtain ⟨back, frac, hback, ⟨rfl, hm⟩ | ⟨hpoint, -⟩⟩ := ih h
          · exact ⟨[], [], .nil, .inr ⟨by simpa using hp, back, frac, hback, rfl, hm⟩⟩
          · cases hpoint
      · split at h
        · rename_i d hd
          obtain ⟨front, whole, hrun, hcase⟩ := ih h
          refine ⟨b :: front, d :: whole, .digit (value?_iff.mp hd) hrun, hcase.imp ?_ ?_⟩
          · rintro ⟨rfl, hm⟩
            exact ⟨rfl, hm⟩
          · rintro ⟨hp, back, frac, hback, rfl, hm⟩
            rw [point_push] at hp
            exact ⟨hp, back, frac, hback, rfl, hm⟩
        · cases h
          exact ⟨[], [], .nil, .inl ⟨rfl, rfl⟩⟩

/-- The digits read so far are those of `n`, the last `dropped` ones not kept, and `places` are behind the point. -/
structure Keeps (base : Base) (m : Mantissa) (n places dropped : Nat) : Prop where
  value : m.value = n / base.radix ^ dropped
  inexact : m.inexact = decide (n % base.radix ^ dropped ≠ 0)
  power : m.power = dropped - places
  full : dropped ≠ 0 → m.count = base.kept
  most : m.count ≤ base.kept
  lt : m.value < base.radix ^ m.count
  le : m.count ≠ 0 → base.radix ^ (m.count - 1) ≤ m.value

theorem Keeps.dropped_eq_zero {dropped : Nat} (h : Keeps base m n places dropped) (hc : m.count < base.kept) :
    dropped = 0 := by
  by_contra hne
  have := h.full hne
  omega

theorem Keeps.pushed_lt {dropped : Nat} (h : Keeps base m n places dropped) (hd : d < base.radix) :
    m.value * base.radix + d < base.radix ^ (m.count + 1) :=
  calc m.value * base.radix + d < (m.value + 1) * base.radix := by rw [Nat.add_mul, Nat.one_mul]; omega
    _ ≤ base.radix ^ m.count * base.radix := Nat.mul_le_mul_right _ h.lt
    _ = base.radix ^ (m.count + 1) := (Nat.pow_succ ..).symm

theorem Keeps.le_pushed {dropped : Nat} (h : Keeps base m n places dropped) (hd : m.count = 0 → d ≠ 0) :
    base.radix ^ m.count ≤ m.value * base.radix + d := by
  by_cases hc : m.count = 0
  · have := hd hc
    rw [hc, Nat.pow_zero]
    omega
  · calc base.radix ^ m.count = base.radix ^ (m.count - 1) * base.radix := (Nat.pow_pred_mul (by omega)).symm
      _ ≤ m.value * base.radix := Nat.mul_le_mul_right _ (h.le hc)
      _ ≤ m.value * base.radix + d := Nat.le_add_right ..

theorem Keeps.push {dropped : Nat} (h : Keeps base m n places dropped) (hd : d < base.radix) :
    ∃ dropped',
      Keeps base (m.push base d) (n * base.radix + d) (if m.point then places + 1 else places) dropped' := by
  have hpower := h.power
  have hvalue := h.value
  unfold Mantissa.push
  dsimp only
  split
  · -- a leading zero
    rename_i hz
    obtain ⟨hc, rfl⟩ : m.count = 0 ∧ d = 0 := by simpa using hz
    obtain rfl := h.dropped_eq_zero (by rw [hc]; cases base <;> decide)
    have hlt := h.lt
    rw [hc, Nat.pow_zero] at hlt
    rw [Nat.pow_zero, Nat.div_one] at hvalue
    obtain rfl : n = 0 := by omega
    rw [Nat.zero_mul, Nat.add_zero]
    refine ⟨0, ?_⟩
    split
    · exact ⟨h.value, h.inexact, by simp only; omega, h.full, h.most, h.lt, h.le⟩
    · exact ⟨h.value, h.inexact, h.power, h.full, h.most, h.lt, h.le⟩
  · rename_i hz
    split
    · -- the digit is kept
      rename_i hc
      obtain rfl := h.dropped_eq_zero hc
      have hinexact := h.inexact
      rw [Nat.pow_zero, Nat.div_one] at hvalue
      rw [Nat.pow_zero, Nat.mod_one] at hinexact
      refine ⟨0, ?_, ?_, ?_, fun hne => absurd rfl hne, hc, h.pushed_lt hd, fun _ => ?_⟩
      · rw [Nat.pow_zero, Nat.div_one, hvalue]
      · rw [Nat.pow_zero, Nat.mod_one, hinexact]
      · dsimp only
        split <;> omega
      · rw [Nat.add_sub_cancel]
        exact h.le_pushed fun hc0 hd0 => hz (by simp [hc0, hd0])
    · -- it is not
      rename_i hc
      have hdiv : (n * base.radix + d) / base.radix = n := by
        rw [Nat.mul_comm, Nat.mul_add_div (by omega), Nat.div_eq_of_lt hd, Nat.add_zero]
      have hmod : (n * base.radix + d) % base.radix = d := by
        rw [Nat.mul_comm, Nat.mul_add_mod, Nat.mod_eq_of_lt hd]
      refine ⟨dropped + 1, ?_, ?_, ?_, fun _ => Nat.le_antisymm h.most (Nat.not_lt.mp hc), h.most, h.lt, h.le⟩
      · rw [Nat.pow_succ', ← Nat.div_div_eq_div_mul, hdiv]
        exact hvalue
      · rw [Nat.pow_succ', Nat.mod_mul, hdiv, hmod, h.inexact]
        have : 0 < base.radix := by omega
        by_cases hd0 : d = 0
        · simp [hd0]
          omega
        · simp [hd0]
      · dsimp only
        split <;> omega

theorem Keeps.foldl {dropped : Nat} (h : Keeps base m n places dropped) (hds : ∀ d ∈ ds, d < base.radix) :
    ∃ dropped', Keeps base (ds.foldl (Mantissa.push base) m) (n * base.radix ^ ds.length + total base.radix ds)
      (if m.point then places + ds.length else places) dropped' := by
  induction ds generalizing m n places dropped with
  | nil =>
    refine ⟨dropped, ?_⟩
    simpa using h
  | cons d ds ih =>
    obtain ⟨hd, hds⟩ := List.forall_mem_cons.mp hds
    obtain ⟨_, hpush⟩ := h.push hd
    obtain ⟨dropped', hk⟩ := ih hpush hds
    refine ⟨dropped', ?_⟩
    rw [point_push] at hk
    have hn : n * base.radix ^ (d :: ds).length + total base.radix (d :: ds) =
        (n * base.radix + d) * base.radix ^ ds.length + total base.radix ds := by
      rw [total_cons, List.length_cons, Nat.pow_succ]
      ring
    have hplaces : (if m.point then places + (d :: ds).length else places) =
        if m.point then (if m.point then places + 1 else places) + ds.length else
          (if m.point then places + 1 else places) := by
      split
      · rw [List.length_cons]
        omega
      · rfl
    rw [hn, hplaces]
    exact hk

theorem keeps_empty (base : Base) : Keeps base {} 0 0 0 :=
  ⟨by simp, by simp, rfl, fun h => absurd rfl h, Nat.zero_le _, by simp, fun h => absurd rfl h⟩

theorem started_foldl (m : Mantissa) (ds : List Nat) :
    (ds.foldl (push base) m).started = (m.started || !ds.isEmpty) := by
  induction ds generalizing m with
  | nil => simp
  | cons d ds ih =>
    rw [List.foldl_cons, ih, started_push]
    simp

theorem point_foldl (m : Mantissa) (ds : List Nat) : (ds.foldl (push base) m).point = m.point := by
  induction ds generalizing m with
  | nil => rfl
  | cons d ds ih => rw [List.foldl_cons, ih, point_push]

theorem keeps_point {whole frac : List Nat} (hw : ∀ d ∈ whole, d < base.radix) (hf : ∀ d ∈ frac, d < base.radix) :
    ∃ dropped, Keeps base (frac.foldl (push base) { whole.foldl (push base) {} with point := true })
      (total base.radix (whole ++ frac)) frac.length dropped := by
  obtain ⟨k, hk⟩ := (keeps_empty base).foldl hw
  have hk' : Keeps base { whole.foldl (push base) {} with point := true } (total base.radix whole) 0 k := by
    rw [Nat.zero_mul, Nat.zero_add] at hk
    exact ⟨hk.value, hk.inexact, hk.power, hk.full, hk.most, hk.lt, hk.le⟩
  obtain ⟨dropped, hd⟩ := hk'.foldl hf
  rw [if_pos rfl, Nat.zero_add, ← total_append] at hd
  exact ⟨dropped, hd⟩

end

end Mantissa

/-! ## Rounding what is kept -/

section
variable {negative : Bool} {x : Binary64}

theorem middle_zero : Binary64.middle 0 = 2 ^ (-1075 : Int) := by
  have h : Binary64.middle (0 * 2 ^ 52 + 0) = _ := Binary64.middle_place (by norm_num) (.inr rfl)
  rw [show 0 * 2 ^ 52 + 0 = 0 from rfl] at h
  rw [h, show (-1075 : Int) = -1 + (((0 : Nat) : Int) - 1074) by norm_num, zpow_add₀ (by norm_num)]
  norm_num

theorem isNearest_of_small {r : ℚ} (hr : r ≤ 2 ^ (-1075 : Int)) :
    Binary64.signed negative 0 = x ↔ Binary64.IsNearest negative r x := by
  have hb : Binary64.Between r 0 := ⟨fun v hv => by omega, middle_zero ▸ hr, fun h => by omega⟩
  have hz := hb.rounds (by norm_num)
  constructor
  · rintro rfl
    exact ⟨0, hz, rfl⟩
  · rintro ⟨w, hw, rfl⟩
    rw [← hz.unique hw]
    rfl

theorem not_isNearest_of_large {r : ℚ} (hr : 2 ^ 1024 ≤ r) : ¬Binary64.IsNearest negative r x := by
  rintro ⟨w, hw, -⟩
  have hpos : (0 : ℚ) < 2 ^ 970 := by positivity
  exact absurd hw.range (not_lt.mpr ((sub_le_self _ hpos.le).trans hr))

theorem unless_infinite_iff {y : Binary64} :
    (if y.isInfinite then none else some y) = some x ↔ y = x ∧ x.isInfinite = false := by
  split
  · rename_i h
    simp only [reduceCtorEq, false_iff, not_and]
    rintro rfl
    rw [h]
    decide
  · rename_i h
    rw [Option.some.injEq]
    refine ⟨fun hy => ⟨hy, hy ▸ Bool.not_eq_true _ ▸ h⟩, And.left⟩

/-- The bounds of decimals, and the digits that are kept, are far enough from the format. -/
theorem powers_compared : 2 ^ 1075 ≤ 10 ^ 330 ∧ 2 ^ 1024 ≤ 10 ^ 309 ∧
    2 ^ 1024 ≤ Base.ten.radix ^ (Base.ten.kept - 1) ∧ 2 ^ 53 * 5 ^ 1074 ≤ Base.ten.radix ^ (Base.ten.kept - 1) ∧
    2 ^ 1024 ≤ Base.sixteen.radix ^ (Base.sixteen.kept - 1) := by
  decide +kernel

theorem scaled_le_of_small {count v : Nat} {p : Int} (hlt : v < 10 ^ (count + 1)) (hp : p + count < -330) :
    (v : ℚ) * 10 ^ p ≤ 2 ^ (-1075 : Int) := by
  have hv : (v : ℚ) ≤ 10 ^ (count + 1) := by exact_mod_cast hlt.le
  have hbound : (10 : ℚ) ^ (-330 : Int) ≤ 2 ^ (-1075 : Int) := by
    rw [zpow_neg, zpow_neg]
    refine inv_anti₀ (by positivity) ?_
    exact_mod_cast powers_compared.1
  calc (v : ℚ) * 10 ^ p ≤ 10 ^ (count + 1) * 10 ^ p := by gcongr
    _ = 10 ^ (((count + 1 : Nat) : Int) + p) := by rw [zpow_add₀ (by norm_num), zpow_natCast]
    _ ≤ 10 ^ (-330 : Int) := zpow_le_zpow_right₀ (by norm_num) (by push_cast; omega)
    _ ≤ 2 ^ (-1075 : Int) := hbound

theorem le_scaled_of_large {count v : Nat} {p : Int} (hle : 10 ^ count ≤ 10 * v) (hp : 310 ≤ p + count) :
    (2 : ℚ) ^ 1024 ≤ v * 10 ^ p := by
  have hv : (10 : ℚ) ^ count ≤ 10 * v := by exact_mod_cast hle
  have hbound : (2 : ℚ) ^ 1024 ≤ 10 ^ 309 := by exact_mod_cast powers_compared.2.1
  have hpow : (10 : ℚ) ^ 309 * 10 ≤ 10 * v * 10 ^ p :=
    calc (10 : ℚ) ^ 309 * 10 = 10 ^ ((309 : Int) + 1) := by rw [zpow_add₀ (by norm_num), zpow_one]; rfl
      _ ≤ 10 ^ ((count : Int) + p) := zpow_le_zpow_right₀ (by norm_num) (by omega)
      _ = 10 ^ count * 10 ^ p := by rw [zpow_add₀ (by norm_num), zpow_natCast]
      _ ≤ 10 * v * 10 ^ p := by gcongr
  refine hbound.trans (le_of_mul_le_mul_right (hpow.trans_eq ?_) (by norm_num : (0 : ℚ) < 10))
  ring

/-- What is left out at both ends is rounded to zero, or too large. -/
theorem ofDecimal_iff {count v : Nat} {p : Int} (hlt : v < 10 ^ (count + 1)) (hle : v ≠ 0 → 10 ^ count ≤ 10 * v) :
    ofDecimal negative count v p = some x ↔ Binary64.IsNearest negative (v * 10 ^ p) x := by
  unfold ofDecimal
  split
  · rename_i hsmall
    rw [Option.some.injEq]
    refine isNearest_of_small ?_
    rcases Nat.eq_zero_or_pos v with rfl | hv
    · rw [Nat.cast_zero, zero_mul]
      positivity
    · rw [Bool.or_eq_true, decide_eq_true_eq, decide_eq_true_eq] at hsmall
      exact scaled_le_of_small hlt (hsmall.resolve_left (Nat.pos_iff_ne_zero.mp hv))
  · split
    · rename_i hsmall hlarge
      rw [iff_false_left (by simp)]
      exact not_isNearest_of_large (le_scaled_of_large (hle fun h0 => hsmall (by simp [h0])) (Int.le_of_lt hlarge))
    · cases p with
      | ofNat p =>
        dsimp only
        rw [unless_infinite_iff, Binary64.nearest_iff negative _ Nat.one_pos]
        simp
      | negSucc p =>
        dsimp only
        rw [Nat.pow_eq, unless_infinite_iff, Binary64.nearest_iff negative _ (Nat.pow_pos (by decide))]
        simp [zpow_negSucc, div_eq_mul_inv]

theorem ofBinary_iff {v : Nat} {p : Int} :
    ofBinary negative v p = some x ↔ Binary64.IsNearest negative (v * 2 ^ p) x := by
  unfold ofBinary Binary64.nearestScaled
  dsimp only
  rw [unless_infinite_iff, Binary64.nearest_iff negative _ (Binary64.scaleBy_pos p v Nat.one_pos),
    Binary64.scaleBy_quotient, Nat.cast_one, div_one]

section
variable {base : Base} {m : Mantissa} {n places dropped : Nat}

theorem Mantissa.Keeps.sticky_exact (h : m.Keeps base n places dropped) (hi : m.inexact = false) :
    ((m.sticky base).1 : ℚ) * base.radix ^ (m.sticky base).2 = n * (base.radix : ℚ) ^ (-(places : Int)) := by
  have hradix : (base.radix : ℚ) ≠ 0 := by cases base <;> norm_num [Base.radix]
  have hmod : n % base.radix ^ dropped = 0 := by
    have := h.inexact
    rw [hi] at this
    simpa using this.symm
  have hn : (n : ℚ) = m.value * base.radix ^ dropped := by
    rw [h.value]
    exact_mod_cast (Nat.div_mul_cancel (Nat.dvd_of_mod_eq_zero hmod)).symm
  unfold sticky
  rw [hi, if_neg (by decide), hn, h.power, mul_assoc, ← zpow_natCast, ← zpow_add₀ hradix]
  rfl

/-- The digits that are not kept, and the one that stands for them, come to less than one in the last place. -/
theorem Mantissa.Keeps.sticky_between (h : m.Keeps base n places dropped) (hi : m.inexact = true) :
    ((m.value : ℚ) * base.radix ^ m.power < (m.sticky base).1 * base.radix ^ (m.sticky base).2 ∧
      ((m.sticky base).1 : ℚ) * base.radix ^ (m.sticky base).2 < (m.value + 1) * base.radix ^ m.power) ∧
    ((m.value : ℚ) * base.radix ^ m.power < n * (base.radix : ℚ) ^ (-(places : Int)) ∧
      n * (base.radix : ℚ) ^ (-(places : Int)) < (m.value + 1) * base.radix ^ m.power) := by
  have hradix : (1 : ℚ) < base.radix := by cases base <;> norm_num [Base.radix]
  have hne : (base.radix : ℚ) ≠ 0 := by positivity
  have hmod : n % base.radix ^ dropped ≠ 0 := by
    have := h.inexact
    rw [hi] at this
    simpa using this.symm
  constructor
  · have hp : (0 : ℚ) < base.radix ^ (m.power - 1) := by positivity
    unfold sticky
    rw [hi, if_pos rfl]
    have hstep : (base.radix : ℚ) ^ m.power = base.radix * base.radix ^ (m.power - 1) := by
      rw [← zpow_one_add₀ hne]
      congr 1
      ring
    rw [hstep]
    push_cast
    constructor <;> nlinarith
  · have hp : (0 : ℚ) < (base.radix : ℚ) ^ (-(places : Int)) := by positivity
    have hstep : (base.radix : ℚ) ^ m.power = base.radix ^ dropped * (base.radix : ℚ) ^ (-(places : Int)) := by
      rw [h.power, sub_eq_add_neg, zpow_add₀ hne, zpow_natCast]
    have hn : (n : ℚ) = m.value * base.radix ^ dropped + (n % base.radix ^ dropped : Nat) := by
      rw [h.value]
      exact_mod_cast (Nat.div_add_mod' n _).symm
    have hpos : (0 : ℚ) < (n % base.radix ^ dropped : Nat) := by exact_mod_cast Nat.pos_of_ne_zero hmod
    have hlt : ((n % base.radix ^ dropped : Nat) : ℚ) < base.radix ^ dropped := by
      exact_mod_cast Nat.mod_lt n (show 0 < base.radix ^ dropped from Nat.pow_pos (by cases base <;> decide))
    have h₁ : (m.value : ℚ) * base.radix ^ dropped < n := by linarith
    have h₂ : (n : ℚ) < (m.value + 1) * base.radix ^ dropped := by linarith
    rw [hstep, ← mul_assoc, ← mul_assoc]
    exact ⟨mul_lt_mul_of_pos_right h₁ hp, mul_lt_mul_of_pos_right h₂ hp⟩

theorem Mantissa.Keeps.isNearest_sticky (h : m.Keeps base n places dropped) {s : ℚ} (hs : 0 < s)
    (hgap : base.radix ^ (base.kept - 1) ≤ m.value → ∀ w < 0x7FF0000000000000,
      Binary64.middle w ≤ m.value * base.radix ^ m.power * s ∨
        (m.value + 1) * base.radix ^ m.power * s ≤ Binary64.middle w) :
    Binary64.IsNearest negative ((m.sticky base).1 * base.radix ^ (m.sticky base).2 * s) x ↔
      Binary64.IsNearest negative (n * (base.radix : ℚ) ^ (-(places : Int)) * s) x := by
  cases hi : m.inexact with
  | false => rw [h.sticky_exact hi]
  | true =>
    obtain ⟨⟨h₁, h₂⟩, h₃, h₄⟩ := h.sticky_between hi
    have hfull : m.count = base.kept := by
      refine h.full fun h0 => ?_
      have := h.inexact
      rw [hi, h0, Nat.pow_zero, Nat.mod_one] at this
      cases this
    have hvalue := h.le (by rw [hfull]; cases base <;> decide)
    rw [hfull] at hvalue
    exact Binary64.isNearest_congr (hgap hvalue) (by positivity)
      ⟨mul_lt_mul_of_pos_right h₁ hs, mul_lt_mul_of_pos_right h₂ hs⟩
      ⟨mul_lt_mul_of_pos_right h₃ hs, mul_lt_mul_of_pos_right h₄ hs⟩

theorem Mantissa.Keeps.ofDecimal_sticky (h : m.Keeps .ten n places dropped) (e : Int) :
    ofDecimal negative m.count (m.sticky .ten).1 ((m.sticky .ten).2 + e) = some x ↔
      Binary64.IsNearest negative (n * 10 ^ (e - places)) x := by
  have hlt : (m.sticky .ten).1 < 10 ^ (m.count + 1) := by
    have := h.lt
    change m.value < 10 ^ m.count at this
    unfold sticky
    rw [Nat.pow_succ]
    split
    · change m.value * 10 + 1 < _
      omega
    · change m.value < _
      omega
  have hle : (m.sticky .ten).1 ≠ 0 → 10 ^ m.count ≤ 10 * (m.sticky .ten).1 := by
    have hvalue : m.value ≤ (m.sticky .ten).1 := by
      unfold sticky
      split
      · change m.value ≤ m.value * 10 + 1
        omega
      · exact le_rfl
    intro hne
    by_cases hc : m.count = 0
    · rw [hc, Nat.pow_zero]
      omega
    · have hle : 10 ^ (m.count - 1) ≤ m.value := h.le hc
      calc 10 ^ m.count = 10 * 10 ^ (m.count - 1) := by
            rw [← Nat.pow_succ']
            congr 1
            omega
        _ ≤ 10 * (m.sticky .ten).1 := Nat.mul_le_mul_left 10 (hle.trans hvalue)
  have hgrid (p q : Int) : (10 : ℚ) ^ p * 10 ^ q = (2 * (5 : Nat)) ^ (p + q) := by
    rw [← zpow_add₀ (by norm_num)]
    norm_num
  rw [ofDecimal_iff hlt hle, zpow_add₀ (by norm_num), ← mul_assoc, sub_eq_neg_add, zpow_add₀ (by norm_num),
    ← mul_assoc]
  refine h.isNearest_sticky (by positivity) fun hv w hw => ?_
  simp only [Base.radix, Nat.cast_ofNat]
  rw [mul_assoc, mul_assoc, hgrid]
  exact Binary64.middle_off_grid (by norm_num) (powers_compared.2.2.1.trans hv)
    (powers_compared.2.2.2.1.trans hv) _ hw

theorem Mantissa.Keeps.ofBinary_sticky (h : m.Keeps .sixteen n places dropped) (e : Int) :
    ofBinary negative (m.sticky .sixteen).1 (4 * (m.sticky .sixteen).2 + e) = some x ↔
      Binary64.IsNearest negative (n * 2 ^ (e - 4 * places)) x := by
  have hsixteen (p : Int) : (2 : ℚ) ^ (4 * p) = 16 ^ p := by
    rw [zpow_mul]
    norm_num
  have hgrid (p q : Int) : (16 : ℚ) ^ p * 2 ^ q = (2 * (1 : Nat)) ^ (4 * p + q) := by
    rw [← hsixteen, ← zpow_add₀ (by norm_num)]
    norm_num
  rw [ofBinary_iff, zpow_add₀ (by norm_num), ← mul_assoc, hsixteen, sub_eq_neg_add, ← mul_neg,
    zpow_add₀ (by norm_num), ← mul_assoc, hsixteen]
  refine h.isNearest_sticky (by positivity) fun hv w hw => ?_
  simp only [Base.radix, Nat.cast_ofNat]
  rw [mul_assoc, mul_assoc, hgrid]
  have hlarge : 2 ^ 1024 ≤ m.value := powers_compared.2.2.2.2.trans hv
  refine Binary64.middle_off_grid (by norm_num) hlarge ?_ _ hw
  rw [Nat.one_pow, Nat.mul_one]
  exact (Nat.pow_le_pow_right (by norm_num) (by norm_num)).trans hlarge

end

end

/-! ## Reading numbers -/

section
variable {base : Base} {negative : Bool} {x : Binary64} {m : Mantissa} {text tail : Bytes} {whole frac : List Nat}
    {e : Int}

theorem spelled_of_read (h : ({} : Mantissa).read base text = (m, tail)) (hs : m.started = true) :
    ∃ whole frac dropped, Mantissa.Spelled base.radix text whole frac tail ∧
      m.Keeps base (total base.radix (whole ++ frac)) frac.length dropped := by
  obtain ⟨front, whole, hrun, ⟨rfl, rfl⟩ | ⟨-, back, frac, hback, rfl, rfl⟩⟩ := Mantissa.run_of_read h
  · obtain ⟨dropped, hk⟩ := (Mantissa.keeps_empty base).foldl hrun.lt
    rw [Nat.zero_mul, Nat.zero_add, if_neg (by decide)] at hk
    rw [Mantissa.started_foldl] at hs
    refine ⟨whole, [], dropped, ⟨front, [], ?_, hrun, .none, ?_⟩, ?_⟩
    · rw [List.append_nil]
    · simpa using hs
    · rwa [List.append_nil]
  · obtain ⟨dropped, hk⟩ := Mantissa.keeps_point hrun.lt hback.lt
    rw [Mantissa.started_foldl] at hs
    refine ⟨whole, frac, dropped, ⟨front, 46 :: back, rfl, hrun, .point hback, ?_⟩, hk⟩
    simp only [Mantissa.started_foldl] at hs
    simpa [or_iff_not_imp_left] using hs

theorem read_of_spelled (h : Mantissa.Spelled base.radix text whole frac tail)
    (hstop : ∀ m : Mantissa, m.read base tail = (m, tail)) :
    ∃ m dropped, ({} : Mantissa).read base text = (m, tail) ∧ m.started = true ∧
      m.Keeps base (total base.radix (whole ++ frac)) frac.length dropped := by
  obtain ⟨front, back, rfl, hrun, hback, hne⟩ := h
  rw [List.append_assoc, Mantissa.read_run hrun]
  cases hback with
  | none =>
    obtain ⟨dropped, hk⟩ := (Mantissa.keeps_empty base).foldl hrun.lt
    rw [Nat.zero_mul, Nat.zero_add, if_neg (by decide)] at hk
    rw [List.append_nil] at hne ⊢
    refine ⟨_, dropped, hstop _, ?_, hk⟩
    rw [Mantissa.started_foldl]
    simpa using hne
  | point hback =>
    obtain ⟨dropped, hk⟩ := Mantissa.keeps_point hrun.lt hback.lt
    refine ⟨_, dropped, ?_, ?_, hk⟩
    · rw [List.cons_append, Mantissa.read, if_neg (by decide), if_pos rfl, Mantissa.point_foldl, if_neg (by decide),
        Mantissa.read_run hback, hstop]
    · simp only [Mantissa.started_foldl]
      simpa [or_iff_not_imp_left] using hne

theorem toLower_eq_iff {letter b : UInt8} (hl : 97 ≤ letter.toNat) (hl' : letter.toNat ≤ 122) :
    toLower b = letter ↔ Letter letter b := by
  have h := toNat_toLower b
  unfold Letter
  rw [← UInt8.toNat_inj, ← UInt8.toNat_inj, h]
  split <;> omega

theorem toLower_mark_iff {b : UInt8} : toLower b = base.exponentMark ↔ Letter base.exponentMark b := by
  cases base
  · exact toLower_eq_iff (by decide) (by decide)
  · exact toLower_eq_iff (by decide) (by decide)

theorem readPower_iff : readPower base tail = some (e, []) ↔
    base = .ten ∧ tail = [] ∧ e = 0 ∨ Power base.exponentMark tail e := by
  cases tail with
  | nil =>
    rw [readPower, Option.ite_none_right_eq_some]
    constructor
    · rintro ⟨hb, h⟩
      cases h
      exact .inl ⟨hb, rfl, rfl⟩
    · rintro (⟨hb, -, rfl⟩ | h)
      · exact ⟨hb, rfl⟩
      · cases h
  | cons b rest =>
    rw [readPower, Option.ite_none_right_eq_some, toLower_mark_iff, readExponent_iff]
    constructor
    · rintro ⟨hb, he⟩
      exact .inr (.mk hb he)
    · rintro (⟨-, h, -⟩ | ⟨hb, he⟩)
      · cases h
      · exact ⟨hb, he⟩

theorem Power.read (h : Power base.exponentMark tail e) (m : Mantissa) : m.read base tail = (m, tail) := by
  obtain ⟨hb, -⟩ := h
  rename_i b rest
  have hb' : base = .ten ∧ (b = 101 ∨ b = 69) ∨ base = .sixteen ∧ (b = 112 ∨ b = 80) := by
    cases base
    · exact .inl ⟨rfl, hb.imp_right fun h => UInt8.toNat_inj.mp (Nat.add_right_cancel h)⟩
    · exact .inr ⟨rfl, hb.imp_right fun h => UInt8.toNat_inj.mp (Nat.add_right_cancel h)⟩
  rcases hb' with ⟨rfl, rfl | rfl⟩ | ⟨rfl, rfl | rfl⟩ <;> rfl

/-- The number behind the digits, by the base. -/
def Base.scaled (base : Base) (n places : Nat) (e : Int) : ℚ :=
  match base with
  | ten => n * 10 ^ (e - places)
  | sixteen => n * 2 ^ (e - 4 * places)

theorem readDigits_iff : readDigits base negative text = some x ↔ ∃ whole frac tail e,
    Mantissa.Spelled base.radix text whole frac tail ∧
    (base = .ten ∧ tail = [] ∧ e = 0 ∨ Power base.exponentMark tail e) ∧
    underscoresFit base (if base = .ten then .nothing else .digit) text = true ∧
    Binary64.IsNearest negative (base.scaled (total base.radix (whole ++ frac)) frac.length e) x := by
  unfold readDigits
  constructor
  · intro h
    cases hr : ({} : Mantissa).read base text with
    | mk m tail =>
      rw [hr] at h
      dsimp only at h
      split at h
      · rename_i e he
        obtain ⟨hc, h⟩ := Option.ite_none_right_eq_some.mp h
        obtain ⟨hs, hu⟩ := Bool.and_eq_true_iff.mp hc
        obtain ⟨whole, frac, dropped, hspelled, hk⟩ := spelled_of_read hr hs
        refine ⟨whole, frac, tail, e, hspelled, readPower_iff.mp he, hu, ?_⟩
        cases base with
        | ten => exact (hk.ofDecimal_sticky e).mp h
        | sixteen => exact (hk.ofBinary_sticky e).mp h
      · cases h
  · rintro ⟨whole, frac, tail, e, hspelled, ht, hu, hx⟩
    have hstop (m : Mantissa) : m.read base tail = (m, tail) := by
      rcases ht with ⟨-, rfl, -⟩ | ht
      · rfl
      · exact ht.read m
    obtain ⟨m, dropped, hr, hs, hk⟩ := read_of_spelled hspelled hstop
    rw [hr]
    dsimp only
    rw [readPower_iff.mpr ht]
    dsimp only
    rw [if_pos (Bool.and_eq_true_iff.mpr ⟨hs, hu⟩)]
    cases base with
    | ten => exact (hk.ofDecimal_sticky e).mpr hx
    | sixteen => exact (hk.ofBinary_sticky e).mpr hx

end

theorem map_toLower_iff {name text : Bytes} (h : ∀ b ∈ name, 97 ≤ b.toNat ∧ b.toNat ≤ 122) :
    text.map toLower = name ↔ Named name text := by
  unfold Named
  induction name generalizing text with
  | nil => simp
  | cons letter name ih =>
    obtain ⟨hl, h⟩ := List.forall_mem_cons.mp h
    cases text with
    | nil => simp
    | cons b text => rw [List.map_cons, List.cons.injEq, List.forall₂_cons, toLower_eq_iff hl.1 hl.2, ih h]

theorem names_spelled : txt "inf" = [105, 110, 102] ∧ txt "infinity" = [105, 110, 102, 105, 110, 105, 116, 121] ∧
    txt "nan" = [110, 97, 110] := by
  decide +kernel

section
variable {negative : Bool} {x : Binary64} {text : Bytes} {r : ℚ}

theorem Magnitude.head (h : Magnitude text r) : ∃ b rest, text = b :: rest ∧ 45 < b.toNat ∧ b.toNat ≤ 57 := by
  cases h with
  | hexadecimal => exact ⟨48, _, rfl, by decide⟩
  | decimal hsep hspelled =>
    obtain ⟨front, back, rfl, hrun, hback, hne⟩ := hspelled
    cases hrun with
    | nil =>
      cases hback with
      | none => exact absurd rfl hne
      | point => exact ⟨46, _, rfl, by decide⟩
    | underscore => exact absurd rfl hsep.first
    | digit hd =>
      have hb := isDigit_iff.mp (digit_ten_iff.mp hd).1
      exact ⟨_, _, rfl, by omega⟩

theorem readDigits_ten_iff : readDigits .ten negative text = some x ↔ ∃ whole frac tail e,
    Separated 10 text ∧ Mantissa.Spelled 10 text whole frac tail ∧ (tail = [] ∧ e = 0 ∨ Power 101 tail e) ∧
      Binary64.IsNearest negative (total 10 (whole ++ frac) * 10 ^ (e - frac.length)) x := by
  rw [readDigits_iff, if_pos rfl, separated_iff]
  constructor
  · rintro ⟨whole, frac, tail, e, hs, ht, hu, hx⟩
    exact ⟨whole, frac, tail, e, hu, hs, ht.imp_left And.right, hx⟩
  · rintro ⟨whole, frac, tail, e, hu, hs, ht, hx⟩
    exact ⟨whole, frac, tail, e, hs, ht.imp_left fun h => ⟨rfl, h⟩, hu, hx⟩

/-- The mark of the base is no digit and marks no exponent, so a decimal number does not have it. -/
theorem not_spelled_hexadecimal {y : UInt8} {rest tail : Bytes} {whole frac : List Nat} {e : Int}
    (hy : Letter 120 y) (hs : Mantissa.Spelled 10 (48 :: y :: rest) whole frac tail)
    (ht : tail = [] ∧ e = 0 ∨ Power 101 tail e) : False := by
  have hstop (m : Mantissa) : m.read .ten tail = (m, tail) := by
    rcases ht with ⟨rfl, -⟩ | ht
    · rfl
    · exact (show Power Base.ten.exponentMark tail e from ht).read m
  obtain ⟨m, -, hread, -, -⟩ :=
    read_of_spelled (show Mantissa.Spelled Base.ten.radix _ whole frac tail from hs) hstop
  have hy' : y = 120 ∨ y = 88 := hy.imp_right fun h => UInt8.toNat_inj.mp (Nat.add_right_cancel h)
  have htail : y :: rest = tail := by
    rcases hy' with rfl | rfl
    · exact congrArg Prod.snd hread
    · exact congrArg Prod.snd hread
  subst htail
  rcases ht with ⟨h, -⟩ | ⟨hb, -⟩
  · cases h
  · rcases hy' with rfl | rfl
    · rcases hb with hb | hb <;> cases hb
    · rcases hb with hb | hb <;> cases hb

theorem Mantissa.Spelled.ne_nil {radix : Nat} {tail : Bytes} {whole frac : List Nat}
    (h : Mantissa.Spelled radix text whole frac tail) : text ≠ [] := by
  obtain ⟨front, back, rfl, hrun, hback, hne⟩ := h
  intro hnil
  obtain ⟨hnil, -⟩ := List.append_eq_nil_iff.mp hnil
  obtain ⟨rfl, rfl⟩ := List.append_eq_nil_iff.mp hnil
  cases hrun
  cases hback
  exact hne rfl

theorem readMagnitude_iff :
    readMagnitude negative text = some x ↔ ∃ r, Magnitude text r ∧ Binary64.IsNearest negative r x := by
  have hten (h : readDigits .ten negative text = some x) :
      ∃ r, Magnitude text r ∧ Binary64.IsNearest negative r x := by
    obtain ⟨whole, frac, tail, e, hu, hs, ht, hx⟩ := readDigits_ten_iff.mp h
    exact ⟨_, .decimal hu hs ht, hx⟩
  constructor
  · intro h
    unfold readMagnitude at h
    split at h
    · rename_i y d digits
      split at h
      · rename_i hy
        obtain ⟨whole, frac, tail, e, hs, ht, hu, hx⟩ := readDigits_iff.mp h
        have ht' := ht.resolve_left fun h => by cases h.1
        exact ⟨_, .hexadecimal ((toLower_eq_iff (by decide) (by decide)).mp hy)
          ((separated_prefixed _).mp hu) hs ht', hx⟩
      · exact hten h
    · exact hten h
  · rintro ⟨r, hr, hx⟩
    cases hr with
    | decimal hu hs ht =>
      have h := readDigits_ten_iff.mpr ⟨_, _, _, _, hu, hs, ht, hx⟩
      unfold readMagnitude
      split
      · rename_i y d digits
        rw [if_neg fun hy => not_spelled_hexadecimal ((toLower_eq_iff (by decide) (by decide)).mp hy) hs ht]
        exact h
      · exact h
    | @hexadecimal y text whole frac tail e hy hu hs ht =>
      cases text with
      | nil => exact absurd rfl hs.ne_nil
      | cons d digits =>
        rw [readMagnitude, if_pos ((toLower_eq_iff (by decide) (by decide)).mpr hy), readDigits_iff]
        exact ⟨whole, frac, tail, e, hs, .inr ht, (separated_prefixed _).mpr hu, hx⟩

theorem Letter.lt {letter b : UInt8} (h : Letter letter b) (hl : 97 ≤ letter.toNat) : 57 < b.toNat := by
  rcases h with rfl | h <;> omega

theorem Named.head {name : Bytes} {letter : UInt8} (h : Named (letter :: name) text) (hl : 97 ≤ letter.toNat) :
    ∃ b rest, text = b :: rest ∧ 57 < b.toNat := by
  cases h with
  | cons hb _ => exact ⟨_, _, rfl, hb.lt hl⟩

theorem not_named_of_le {name rest : Bytes} {letter b : UInt8} (hb : b.toNat ≤ 57) (hl : 97 ≤ letter.toNat) :
    ¬Named (letter :: name) (b :: rest) := by
  intro h
  obtain ⟨_, _, heq, hlt⟩ := h.head hl
  cases heq
  omega

theorem splitSign_of_head {sign rest : Bytes} {b : UInt8} (hs : Sign sign negative) (hb : 45 < b.toNat) :
    splitSign (sign ++ b :: rest) = (negative, b :: rest) := by
  refine splitSign_append hs ?_ ?_
  · rintro ⟨⟩
    contradiction
  · rintro ⟨⟩
    contradiction

theorem infinite_iff : (text.map toLower = txt "inf" || text.map toLower = txt "infinity") = true ↔
    Named [105, 110, 102] text ∨ Named [105, 110, 102, 105, 110, 105, 116, 121] text := by
  rw [Bool.or_eq_true, decide_eq_true_eq, decide_eq_true_eq, names_spelled.1, names_spelled.2.1,
    map_toLower_iff (by simp), map_toLower_iff (by simp)]

theorem notANumber_iff : text.map toLower = txt "nan" ↔ Named [110, 97, 110] text := by
  rw [names_spelled.2.2, map_toLower_iff (by simp)]

theorem infinity_eq (negative : Bool) : Binary64.infinity negative =
    ⟨if negative then 0xFFF0000000000000 else 0x7FF0000000000000⟩ := by
  cases negative <;> rfl

/-- Reading gives what the numeral stands for, and nothing where it stands for nothing. -/
theorem readBinary64_iff : readBinary64 text = some x ↔ Denotes text x := by
  unfold readBinary64
  constructor
  · intro h
    obtain ⟨sign, hs, htext⟩ := sign_splitSign text
    revert h hs htext
    cases splitSign text with | mk negative rest =>
    intro h hs htext
    dsimp only at h hs htext
    split at h
    · rename_i hname
      cases h
      rw [htext, infinity_eq]
      exact .infinite hs (infinite_iff.mp hname)
    · split at h
      · rename_i hname
        cases h
        exact .notANumber (notANumber_iff.mp hname)
      · obtain ⟨r, hr, hx⟩ := readMagnitude_iff.mp h
        rw [htext]
        exact .number hs hr hx
  · intro h
    cases h with
    | number hs hr hx =>
      obtain ⟨b, rest, rfl, hb, hb'⟩ := hr.head
      rw [splitSign_of_head hs hb]
      dsimp only
      rw [if_neg, if_neg]
      · exact readMagnitude_iff.mpr ⟨_, hr, hx⟩
      · rw [notANumber_iff]
        cases hs with
        | none => exact not_named_of_le hb' (by decide)
        | plus => exact not_named_of_le (by decide) (by decide)
        | minus => exact not_named_of_le (by decide) (by decide)
      · rw [infinite_iff]
        exact not_or.mpr ⟨not_named_of_le hb' (by decide), not_named_of_le hb' (by decide)⟩
    | infinite hs hn =>
      obtain ⟨b, rest, rfl, hb⟩ := hn.elim (Named.head · (by decide)) (Named.head · (by decide))
      rw [splitSign_of_head hs (by omega)]
      dsimp only
      rw [if_pos (infinite_iff.mpr hn), infinity_eq]
    | notANumber hn =>
      have hname := notANumber_iff.mpr hn
      obtain ⟨b, rest, rfl, hb⟩ := hn.head (by decide)
      have hsplit : splitSign (b :: rest) = (false, b :: rest) := splitSign_of_head .none (by omega)
      rw [hsplit]
      dsimp only
      rw [hname, if_neg, if_pos rfl]
      · rfl
      · rw [names_spelled.1, names_spelled.2.1, names_spelled.2.2]
        decide

end

end RegCode.Numeral
