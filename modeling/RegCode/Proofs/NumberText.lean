import RegCode.Program.Render
import RegCode.Const
import RegCode.Proofs.Shortest

/-!
# The text of a number

The form of a program and the listing of its code add a point to a float by different tests, one on the letters of
the text and one on the number, but the text of a finite number is made of digits, points, exponent marks and signs
only, so the tests agree.

What is written for a finite number has digits, then perhaps a point and more digits, then perhaps an exponent. A
reader of numerals gets the shortest decimal back from these, and from it the number.
-/

namespace RegCode

/-! ## The bytes of a number -/

namespace Binary64

theorem mem_withPoint {rest : Bytes} {b : UInt8} (h : b ∈ withPoint rest) : b = 46 ∨ b ∈ rest := by
  unfold withPoint at h
  split at h
  · cases h
  · exact List.mem_cons.mp h

def isNumeric (b : UInt8) : Bool := Text.isDigit b || b == 46 || b == 101 || b == 43 || b == 45

theorem isNumeric_of_isDigit {b : UInt8} (h : Text.isDigit b = true) : isNumeric b = true := by
  simp [isNumeric, h]

theorem isNumeric_withPoint {rest : Bytes} (h : ∀ b ∈ rest, isNumeric b = true) :
    ∀ b ∈ withPoint rest, isNumeric b = true := by
  intro b hb
  rcases mem_withPoint hb with rfl | hb
  · decide
  · exact h b hb

theorem isNumeric_zeros (n : Nat) : ∀ b ∈ List.replicate n (48 : UInt8), isNumeric b = true := by
  intro b hb
  rw [List.eq_of_mem_replicate hb]
  decide

theorem isNumeric_plain {digits : Bytes} (h : ∀ b ∈ digits, isNumeric b = true) (x : Int) :
    ∀ b ∈ plain digits x, isNumeric b = true := by
  cases x with
  | ofNat x =>
    unfold plain
    simp only [List.forall_mem_append]
    exact ⟨⟨fun b hb => h b (List.mem_of_mem_take hb), isNumeric_zeros _⟩,
      isNumeric_withPoint fun b hb => h b (List.mem_of_mem_drop hb)⟩
  | negSucc x =>
    unfold plain
    rw [List.forall_mem_cons]
    exact ⟨by decide, isNumeric_withPoint (List.forall_mem_append.mpr ⟨isNumeric_zeros x, h⟩)⟩

theorem isNumeric_scientific {digits : Bytes} (h : ∀ b ∈ digits, isNumeric b = true) (l : Layout) (x : Int) :
    ∀ b ∈ scientific l digits x, isNumeric b = true := by
  have hpower : ∀ b ∈ Text.padLeft l.exponentWidth 48 (Text.decimal x.natAbs), isNumeric b = true :=
    List.forall_mem_append.mpr ⟨isNumeric_zeros _, fun b hb => isNumeric_of_isDigit (Text.decimal_isDigit _ b hb)⟩
  unfold scientific
  simp only [List.forall_mem_append, List.forall_mem_cons]
  refine ⟨⟨fun b hb => h b (List.mem_of_mem_take hb),
    isNumeric_withPoint fun b hb => h b (List.mem_of_mem_drop hb)⟩, by decide, ?_, hpower⟩
  split <;> decide

theorem isNumeric_writeDecimal (l : Layout) (d : Decimal) : ∀ b ∈ writeDecimal l d, isNumeric b = true := by
  have hdigits : ∀ b ∈ Text.decimal d.digits, isNumeric b = true :=
    fun b hb => isNumeric_of_isDigit (Text.decimal_isDigit _ b hb)
  unfold writeDecimal
  dsimp only
  split
  · exact isNumeric_plain hdigits _
  · exact isNumeric_scientific hdigits l _

theorem isNumeric_text {x : Binary64} (hn : x.isNaN = false) (hi : x.isInfinite = false) :
    ∀ b ∈ x.text, isNumeric b = true := by
  unfold text
  rw [if_neg (by simp [hn]), if_neg (by simp [hi])]
  dsimp only
  split
  · exact List.forall_mem_cons.mpr ⟨by decide, isNumeric_writeDecimal _ _⟩
  · exact isNumeric_writeDecimal _ _

end Binary64

/-! ## Floats -/

/-- The letters that keep a text from getting a point. -/
theorem Literal.pointMarks : txt ".eEnN" = [46, 101, 69, 110, 78] ∧
    ∀ t ∈ [txt "NaN", txt "-Inf", txt "+Inf"], t.any ((txt ".eEnN").contains ·) = true := by
  decide +kernel

theorem Literal.contains_pointMarks {b : UInt8} (h : Binary64.isNumeric b = true) :
    (txt ".eEnN").contains b = (b == 46 || b == 101) := by
  have hne {x : UInt8} (hx : Binary64.isNumeric x = false) : b ≠ x := by
    rintro rfl
    rw [hx] at h
    cases h
  rw [Literal.pointMarks.1]
  simp [hne (by decide : Binary64.isNumeric 69 = false), hne (by decide : Binary64.isNumeric 110 = false),
    hne (by decide : Binary64.isNumeric 78 = false), beq_eq_decide]

/-- Both printers add a point to the same numbers. -/
theorem Literal.renderFloat_eq (x : Binary64) : Literal.renderFloat x = Const.renderFloat x := by
  unfold Literal.renderFloat Const.renderFloat
  dsimp only
  by_cases hn : x.isNaN = true
  · have htext : x.text = txt "NaN" := by rw [Binary64.text, if_pos hn]
    rw [htext, if_pos (Literal.pointMarks.2 _ (by simp)), if_neg (by simp [hn])]
  · rw [Bool.not_eq_true] at hn
    by_cases hi : x.isInfinite = true
    · have htext : x.text ∈ [txt "NaN", txt "-Inf", txt "+Inf"] := by
        rw [Binary64.text, if_neg (by simp [hn]), if_pos hi]
        split <;> simp
      rw [if_pos (Literal.pointMarks.2 _ htext), if_neg (by simp [hi])]
    · rw [Bool.not_eq_true] at hi
      have hany : x.text.any (fun b => (txt ".eEnN").contains b) = x.text.any (fun b => b == 46 || b == 101) := by
        rw [Bool.eq_iff_iff, List.any_eq_true, List.any_eq_true]
        refine exists_congr fun b => and_congr_right fun hb => ?_
        rw [Literal.contains_pointMarks (Binary64.isNumeric_text hn hi b hb)]
      rw [hany, hn, hi]
      cases x.text.any (fun b => b == 46 || b == 101) <;> rfl

/-! ## Numerals in parts -/

namespace Numeral

theorem exponent_of_lt {ds : List Nat} (h : total 10 ds < 10000) : exponent ds = total 10 ds := by
  unfold exponent
  rw [List.find?_eq_none.mpr, Option.getD_none]
  intro n hn
  obtain ⟨front, hfront, rfl⟩ := List.mem_map.mp hn
  obtain ⟨rest, rfl⟩ := (List.mem_inits _ _).mp hfront
  rw [total_append] at h
  have hle : total 10 front ≤ total 10 front * 10 ^ rest.length :=
    Nat.le_mul_of_pos_right _ (Nat.pow_pos (by decide))
  simp only [decide_eq_true_eq, Nat.not_le]
  omega

/-- An exponent of at least two digits, with its mark and its sign. -/
def exponentText (e : Int) : Bytes :=
  101 :: (if e < 0 then 45 else 43) :: Text.padLeft Binary64.layout.exponentWidth 48 (Text.decimal e.natAbs)

theorem power_exponentText {e : Int} (he : e.natAbs < exponentCap) : Power 101 (exponentText e) e := by
  have hdigits := padLeft_isDigit (Text.decimal_isDigit e.natAbs) Binary64.layout.exponentWidth
  have hval : ofDigits (Text.padLeft Binary64.layout.exponentWidth 48 (Text.decimal e.natAbs)) = e.natAbs := by
    rw [Text.padLeft, ofDigits_zeros, ofDigits_decimal]
  have hne : Text.padLeft Binary64.layout.exponentWidth 48 (Text.decimal e.natAbs) ≠ [] := by
    intro h
    exact List.ne_nil_of_length_pos (Text.length_decimal_pos e.natAbs) (List.append_eq_nil_iff.mp h).2
  unfold exponentText
  revert hdigits hval hne
  cases Text.padLeft Binary64.layout.exponentWidth 48 (Text.decimal e.natAbs) with
  | nil => exact fun _ _ hne => absurd rfl hne
  | cons b ds =>
    intro hdigits hval _
    rw [ofDigits_eq_total] at hval
    have hexp : exponent ((b :: ds).map digitValue) = e.natAbs := by
      rw [exponent_of_lt (hval ▸ he), hval]
    have hb : b ≠ 95 := by
      rintro rfl
      cases hdigits 95 (.head _)
    have hrun := run_digits hdigits
    refine .mk (.inl rfl) ?_
    by_cases hneg : e < 0
    · rw [if_pos hneg]
      have h : Exponent ([45] ++ b :: ds) _ := .mk .minus hb hrun
      rw [hexp, if_pos rfl, show -(e.natAbs : Int) = e by omega] at h
      exact h
    · rw [if_neg hneg]
      have h : Exponent ([43] ++ b :: ds) _ := .mk .plus hb hrun
      rw [hexp, if_neg (by decide), show (e.natAbs : Int) = e by omega] at h
      exact h

/-- The end of a numeral: nothing, or the exponent `e`. -/
def Ends (tail : Bytes) (e : Int) : Prop := tail = [] ∧ e = 0 ∨ tail = exponentText e ∧ e.natAbs < exponentCap

theorem mem_exponentText {e : Int} {b : UInt8} (h : b ∈ exponentText e) :
    Text.isDigit b = true ∨ b = 101 ∨ b = 45 ∨ b = 43 := by
  unfold exponentText at h
  simp only [List.mem_cons] at h
  rcases h with rfl | rfl | h
  · exact .inr (.inl rfl)
  · split
    · exact .inr (.inr (.inl rfl))
    · exact .inr (.inr (.inr rfl))
  · exact .inl (padLeft_isDigit (Text.decimal_isDigit _) _ b h)

theorem Ends.mem {tail : Bytes} {e : Int} (h : Ends tail e) {b : UInt8} (hb : b ∈ tail) :
    Text.isDigit b = true ∨ b = 101 ∨ b = 45 ∨ b = 43 := by
  rcases h with ⟨rfl, -⟩ | ⟨rfl, -⟩
  · cases hb
  · exact mem_exponentText hb

theorem Ends.power {tail : Bytes} {e : Int} (h : Ends tail e) : tail = [] ∧ e = 0 ∨ Power 101 tail e := by
  refine h.imp_right ?_
  rintro ⟨rfl, he⟩
  exact power_exponentText he

section
variable {whole frac tail : Bytes} {e : Int}

theorem mem_parts (hw : ∀ b ∈ whole, Text.isDigit b = true) (hf : ∀ b ∈ frac, Text.isDigit b = true)
    (ht : Ends tail e) {b : UInt8} (hb : b ∈ whole ++ Binary64.withPoint frac ++ tail) :
    Text.isDigit b = true ∨ b ∈ ([46, 101, 45, 43] : Bytes) := by
  simp only [List.mem_append] at hb
  rcases hb with (hb | hb) | hb
  · exact .inl (hw b hb)
  · rcases Binary64.mem_withPoint hb with rfl | hb
    · exact .inr (by simp)
    · exact .inl (hf b hb)
  · rcases ht.mem hb with h | h | h | h
    · exact .inl h
    all_goals exact .inr (by simp [h])

end

/-- The numeral `text` has the digits `whole`, the digits `frac` behind a point and the exponent `e` in `tail`, and
stands for `v`. -/
structure Parts (text whole frac tail : Bytes) (e : Int) (v : ℚ) : Prop where
  eq : text = whole ++ Binary64.withPoint frac ++ tail
  digits : ∀ b ∈ whole, Text.isDigit b = true
  ne_nil : whole ≠ []
  places : ∀ b ∈ frac, Text.isDigit b = true
  ends : Ends tail e
  value : (ofDigits (whole ++ frac) : ℚ) * 10 ^ (e - frac.length) = v

theorem ofDigits_lt {ds : Bytes} (h : ∀ b ∈ ds, Text.isDigit b = true) : ofDigits ds < 10 ^ ds.length := by
  rw [ofDigits_eq_total, ← List.length_map (f := digitValue), ← List.length_reverse]
  refine Nat.ofDigits_lt_base_pow_length (by decide) fun d hd => ?_
  obtain ⟨b, hb, rfl⟩ := List.mem_map.mp (List.mem_reverse.mp hd)
  have := isDigit_iff.mp (h b hb)
  unfold digitValue
  omega

theorem ofDigits_append_zeros (ds : Bytes) (k : Nat) :
    ofDigits (ds ++ List.replicate k 48) = ofDigits ds * 10 ^ k := by
  have hzeros := ofDigits_zeros k []
  rw [List.append_nil] at hzeros
  rw [ofDigits_append, List.length_replicate, hzeros]
  rfl

end Numeral

namespace Decimal

def lead (d : Decimal) : Int := d.exponent + (Text.decimal d.digits).length - 1

theorem lead_bounds {d : Decimal} (hd : 0 < d.digits) :
    (10 : ℚ) ^ d.lead ≤ d.value ∧ d.value < 10 ^ (d.lead + 1) := by
  have hpos := Text.length_decimal_pos d.digits
  have hlt : d.digits < 10 ^ (Text.decimal d.digits).length := by
    have := Numeral.ofDigits_lt (Text.decimal_isDigit d.digits)
    rwa [Numeral.ofDigits_decimal] at this
  have hle : 10 ^ ((Text.decimal d.digits).length - 1) ≤ d.digits := by
    by_contra hlt
    rcases Nat.eq_zero_or_pos ((Text.decimal d.digits).length - 1) with h0 | h1
    · rw [h0, Nat.pow_zero] at hlt
      omega
    · have := Text.length_decimal_le h1 (Nat.not_le.mp hlt)
      omega
  have hp : (0 : ℚ) < 10 ^ d.exponent := by positivity
  unfold value lead
  constructor
  · calc (10 : ℚ) ^ (d.exponent + (Text.decimal d.digits).length - 1)
      _ = 10 ^ (((Text.decimal d.digits).length - 1 : Nat) : Int) * 10 ^ d.exponent := by
        rw [← zpow_add₀ (by norm_num)]
        congr 1
        omega
      _ ≤ d.digits * 10 ^ d.exponent := by
        gcongr
        rw [zpow_natCast]
        exact_mod_cast hle
  · calc (d.digits : ℚ) * 10 ^ d.exponent < 10 ^ ((Text.decimal d.digits).length : Int) * 10 ^ d.exponent := by
          gcongr
          rw [zpow_natCast]
          exact_mod_cast hlt
      _ = 10 ^ (d.exponent + (Text.decimal d.digits).length - 1 + 1) := by
        rw [← zpow_add₀ (by norm_num)]
        congr 1
        omega

theorem exponent_le_trimWithin (fuel : Nat) (d : Decimal) : d.exponent ≤ (trimWithin fuel d).exponent := by
  induction fuel generalizing d with
  | zero => exact Int.le_refl _
  | succ fuel ih =>
    unfold trimWithin
    split
    · have := ih ⟨d.digits / 10, d.exponent + 1⟩
      dsimp only at this
      omega
    · exact Int.le_refl _

theorem Interval.exponent_search (i : Interval) (fuel : Nat) (g : Int) : g - fuel ≤ (i.search fuel g).exponent := by
  induction fuel generalizing g with
  | zero => simp [search]
  | succ fuel ih =>
    unfold search
    cases (i.onGrid g).hit with
    | some c =>
      have := exponent_le_trimWithin 17 ⟨c, g⟩
      dsimp only at this ⊢
      omega
    | none =>
      have := ih (g - 1)
      dsimp only
      omega

end Decimal

namespace Binary64

open Numeral (Parts)

theorem isDigit_zeros (k : Nat) : ∀ b ∈ List.replicate k (48 : UInt8), Text.isDigit b = true := by
  intro b hb
  rw [List.eq_of_mem_replicate hb]
  decide

theorem parts_plain (d : Decimal) : ∃ whole frac,
    Parts (plain (Text.decimal d.digits) d.lead) whole frac [] 0 d.value ∧
    (d.exponent ≤ -(frac.length : Int) ∨ frac = []) := by
  have hdigits := Text.decimal_isDigit d.digits
  have hpos := Text.length_decimal_pos d.digits
  have hval := Numeral.ofDigits_decimal d.digits
  unfold Decimal.value
  generalize hx : d.lead = x
  unfold Decimal.lead at hx
  generalize Text.decimal d.digits = ds at *
  cases x with
  | ofNat x =>
    rw [Int.ofNat_eq_natCast] at hx
    rcases Nat.lt_or_ge (x + 1) ds.length with hlt | hge
    · -- the point stands among the digits
      have hwhole : plain ds (Int.ofNat x) = ds.take (x + 1) ++ withPoint (ds.drop (x + 1)) ++ [] := by
        have hnone : x + 1 - (ds.take (x + 1)).length = 0 := by
          rw [List.length_take]
          omega
        rw [plain, hnone, List.replicate_zero, List.append_nil, List.append_nil]
      have hplaces : (0 : Int) - (ds.drop (x + 1)).length = d.exponent := by
        rw [List.length_drop]
        omega
      refine ⟨_, _, ⟨hwhole, fun b hb => hdigits b (List.mem_of_mem_take hb), ?_,
        fun b hb => hdigits b (List.mem_of_mem_drop hb), .inl ⟨rfl, rfl⟩, ?_⟩, .inl ?_⟩
      · intro hnil
        have := congrArg List.length hnil
        rw [List.length_take] at this
        simp only [List.length_nil] at this
        omega
      · rw [List.take_append_drop, hval, hplaces]
      · rw [← hplaces]
        omega
    · -- it stands behind zeros
      have hwhole : plain ds (Int.ofNat x) = ds ++ List.replicate (x + 1 - ds.length) 48 ++ withPoint [] ++ [] := by
        rw [plain, List.take_of_length_le hge, List.drop_of_length_le hge, List.append_nil]
      refine ⟨ds ++ List.replicate (x + 1 - ds.length) 48, [], ⟨hwhole, ?_, ?_, by simp, .inl ⟨rfl, rfl⟩, ?_⟩,
        .inr rfl⟩
      · exact List.forall_mem_append.mpr ⟨hdigits, isDigit_zeros _⟩
      · rw [Ne, List.append_eq_nil_iff]
        rintro ⟨rfl, -⟩
        exact absurd hpos (Nat.lt_irrefl 0)
      · have hexp : d.exponent = ((x + 1 - ds.length : Nat) : Int) := by omega
        rw [List.append_nil, Numeral.ofDigits_append_zeros, hval, hexp, zpow_natCast]
        simp
  | negSucc x =>
    -- it stands in front of zeros
    have hwhole : plain ds (Int.negSucc x) = [48] ++ withPoint (List.replicate x 48 ++ ds) ++ [] := by
      rw [plain, List.append_nil]
      rfl
    have hplaces : (0 : Int) - (List.replicate x (48 : UInt8) ++ ds).length = d.exponent := by
      rw [List.length_append, List.length_replicate]
      omega
    refine ⟨_, _, ⟨hwhole, by simp [Text.isDigit], by simp, List.forall_mem_append.mpr ⟨isDigit_zeros _, hdigits⟩,
      .inl ⟨rfl, rfl⟩, ?_⟩, .inl ?_⟩
    · have hlead := Numeral.ofDigits_zeros (x + 1) ds
      rw [List.replicate_succ] at hlead
      rw [List.singleton_append, ← List.cons_append, hlead, hval, hplaces]
    · rw [← hplaces]
      omega

theorem parts_scientific (d : Decimal) (hx : d.lead.natAbs < Numeral.exponentCap) : ∃ whole frac,
    Parts (scientific layout (Text.decimal d.digits) d.lead) whole frac
      (Numeral.exponentText d.lead) d.lead d.value ∧
      d.lead - frac.length = d.exponent := by
  have hdigits := Text.decimal_isDigit d.digits
  have hpos := Text.length_decimal_pos d.digits
  have hval := Numeral.ofDigits_decimal d.digits
  have hplaces : d.lead - ((Text.decimal d.digits).drop 1).length = d.exponent := by
    rw [List.length_drop, Decimal.lead]
    omega
  refine ⟨(Text.decimal d.digits).take 1, (Text.decimal d.digits).drop 1, ⟨rfl,
    fun b hb => hdigits b (List.mem_of_mem_take hb), ?_, fun b hb => hdigits b (List.mem_of_mem_drop hb),
    .inr ⟨rfl, hx⟩, ?_⟩, hplaces⟩
  · intro hnil
    have := congrArg List.length hnil
    rw [List.length_take] at this
    simp only [List.length_nil] at this
    omega
  · rw [List.take_append_drop, hval, hplaces, Decimal.value]

section
variable {x : Binary64}

theorem shortest_of_word_eq_zero (h : x.word = 0) : x.shortest = ⟨0, 0⟩ := by
  have hzero : x.isZero = true := by
    rw [isZero, magnitude, h]
    rfl
  rw [shortest, if_pos hzero]

theorem shortest_bounds (h : x.word < infiniteWord) : -342 ≤ x.shortest.exponent ∧
    (0 < x.significand → 0 < x.shortest.digits) ∧ x.shortest.value < 10 ^ (Numeral.decimalTop - 1) ∧
      Numeral.decimalBottom ≤ x.shortest.lead ∧ x.shortest.lead < Numeral.decimalTop - 1 := by
  rcases Nat.eq_zero_or_pos x.significand with hm | hm
  · have hlead : (⟨0, 0⟩ : Decimal).lead = 0 := by decide +kernel
    have hvalue : (⟨0, 0⟩ : Decimal).value = 0 := by simp [Decimal.value]
    rw [shortest_of_word_eq_zero ((significand_eq_zero_iff h).mp hm), hlead, hvalue]
    exact ⟨by decide, fun hpos => absurd hm (Nat.pos_iff_ne_zero.mp hpos), by positivity, by decide, by decide⟩
  · have hhas := has_shortest h hm
    obtain ⟨hbottom, htop⟩ := limits_of_has h hm hhas
    have hdigits : 0 < x.shortest.digits := by
      rcases Nat.eq_zero_or_pos x.shortest.digits with h0 | hpos
      · have : (0 : ℚ) < 10 ^ Numeral.decimalBottom := by positivity
        rw [Decimal.value, h0, Nat.cast_zero, zero_mul] at hbottom
        linarith
      · exact hpos
    obtain ⟨hle, hlt⟩ := Decimal.lead_bounds hdigits
    have hlow : Numeral.decimalBottom < x.shortest.lead + 1 :=
      (zpow_lt_zpow_iff_right₀ (by norm_num : (1 : ℚ) < 10)).mp (hbottom.trans hlt)
    have hhigh : x.shortest.lead < Numeral.decimalTop - 1 :=
      (zpow_lt_zpow_iff_right₀ (by norm_num : (1 : ℚ) < 10)).mp (hle.trans_lt htop)
    refine ⟨?_, fun _ => hdigits, htop, by omega, hhigh⟩
    have hexp := x.interval.exponent_search 17 x.interval.floorLog10
    have hlog := (floorLog10_interval h hm).1
    rw [shortest_eq h hm]
    omega

theorem writeDecimal_eq (l : Layout) (d : Decimal) : writeDecimal l d =
    if l.plainFrom ≤ d.lead ∧ d.lead < l.plainBelow then plain (Text.decimal d.digits) d.lead
    else scientific l (Text.decimal d.digits) d.lead := rfl

theorem text_of_word_lt (h : x.word < infiniteWord) : x.text = writeDecimal layout x.shortest := by
  have hmag : x.magnitude = x.word := Nat.mod_eq_of_lt (Nat.lt_trans h (by decide))
  have hnan : ¬x.isNaN = true := by
    simp only [isNaN, hmag, decide_eq_true_eq]
    omega
  have hneg : ¬x.isNegative = true := by
    have : infiniteWord < signBit := by decide
    simp only [isNegative, decide_eq_true_eq]
    omega
  rw [text, if_neg hnan, if_neg (by rw [isInfinite_of_word_lt h]; decide), if_neg hneg]

/-- A numeral keeps its text if it has a point or an exponent, and gets a place otherwise. -/
theorem parts_withPlace {t whole frac tail : Bytes} {e : Int} {v : ℚ} (hp : Parts t whole frac tail e v) :
    ∃ frac', Parts (if t.any (fun b => (txt ".eEnN").contains b) then t else t ++ txt ".0") whole frac' tail e v ∧
      (tail = [] → frac' ≠ []) ∧ (frac' = frac ∨ e = 0 ∧ frac' = [48]) := by
  by_cases hnone : frac = [] ∧ tail = []
  · obtain ⟨rfl, rfl⟩ := hnone
    have ht : t = whole := by rw [hp.eq, List.append_nil, withPoint, List.isEmpty_nil, if_pos rfl, List.append_nil]
    have he : e = 0 := by
      rcases hp.ends with ⟨-, he⟩ | ⟨htail, -⟩
      · exact he
      · cases htail
    have hany : ¬t.any (fun b => (txt ".eEnN").contains b) = true := by
      rw [List.any_eq_true]
      rintro ⟨b, hb, hmark⟩
      have hdigit := hp.digits b (ht ▸ hb)
      rw [Literal.contains_pointMarks (isNumeric_of_isDigit hdigit)] at hmark
      simp only [Bool.or_eq_true, beq_iff_eq] at hmark
      rcases hmark with rfl | rfl <;> exact absurd hdigit (by decide)
    have hplace : txt ".0" = withPoint [48] := by decide +kernel
    refine ⟨[48], ⟨?_, hp.digits, hp.ne_nil, by simp [Text.isDigit], hp.ends, ?_⟩, by simp, .inr ⟨he, rfl⟩⟩
    · rw [if_neg hany, ht, hplace, List.append_nil]
    · have hzero := Numeral.ofDigits_append_zeros whole 1
      rw [List.replicate_one] at hzero
      have hvalue := hp.value
      rw [List.append_nil, List.length_nil, Nat.cast_zero, sub_zero] at hvalue
      rw [hzero, ← hvalue, List.length_singleton, zpow_sub₀ (by norm_num)]
      push_cast
      field_simp
  · have hmark : ∃ b ∈ t, (b == 46 || b == 101) = true ∧ isNumeric b = true := by
      cases hfrac : frac with
      | cons b rest =>
        refine ⟨46, ?_, by decide, by decide⟩
        rw [hp.eq, hfrac, withPoint, if_neg (by simp)]
        simp
      | nil =>
        refine ⟨101, ?_, by decide, by decide⟩
        rcases hp.ends with ⟨htail, -⟩ | ⟨htail, -⟩
        · exact absurd ⟨hfrac, htail⟩ hnone
        · rw [hp.eq, htail, Numeral.exponentText]
          simp
    obtain ⟨b, hb, hmark, hnumeric⟩ := hmark
    have hany : t.any (fun b => (txt ".eEnN").contains b) = true :=
      List.any_eq_true.mpr ⟨b, hb, by rw [Literal.contains_pointMarks hnumeric]; exact hmark⟩
    rw [if_pos hany]
    exact ⟨frac, hp, fun htail hfrac => hnone ⟨hfrac, htail⟩, .inl rfl⟩

/-- The text of a number is a numeral for its shortest decimal. It has a point or an exponent. -/
theorem parts_renderFloat (h : x.word < infiniteWord) : ∃ whole frac tail e,
    Parts (Literal.renderFloat x) whole frac tail e x.shortest.value ∧ -342 ≤ e - frac.length ∧
      (tail = [] → frac ≠ []) ∧
        (tail = [] ↔ layout.plainFrom ≤ x.shortest.lead ∧ x.shortest.lead < layout.plainBelow) := by
  obtain ⟨hexp, -, -, hlow, hhigh⟩ := shortest_bounds h
  have hwritten : ∃ whole frac tail e, Parts (writeDecimal layout x.shortest) whole frac tail e x.shortest.value ∧
      -342 ≤ e - frac.length ∧
        (tail = [] ↔ layout.plainFrom ≤ x.shortest.lead ∧ x.shortest.lead < layout.plainBelow) := by
    rw [writeDecimal_eq]
    by_cases hplain : layout.plainFrom ≤ x.shortest.lead ∧ x.shortest.lead < layout.plainBelow
    · obtain ⟨whole, frac, hp, hfrac⟩ := parts_plain x.shortest
      rw [if_pos hplain]
      refine ⟨whole, frac, [], 0, hp, ?_, by simp [hplain]⟩
      rcases hfrac with hle | rfl
      · omega
      · simp
    · have hcap : x.shortest.lead.natAbs < Numeral.exponentCap := by
        simp only [Numeral.decimalBottom, Numeral.decimalTop] at hlow hhigh
        simp only [Numeral.exponentCap]
        omega
      obtain ⟨whole, frac, hp, hplaces⟩ := parts_scientific x.shortest hcap
      rw [if_neg hplain]
      exact ⟨whole, frac, _, _, hp, by omega, by simp [hplain, Numeral.exponentText]⟩
  obtain ⟨whole, frac, tail, e, hp, hle, hplain⟩ := hwritten
  obtain ⟨frac', hp', hpoint, hfrac⟩ := parts_withPlace hp
  unfold Literal.renderFloat
  rw [text_of_word_lt h]
  refine ⟨whole, frac', tail, e, hp', ?_, hpoint, hplain⟩
  rcases hfrac with rfl | ⟨rfl, rfl⟩
  · exact hle
  · decide

theorem withPoint_cases (frac : Bytes) : withPoint frac = [] ∧ frac = [] ∨ withPoint frac = 46 :: frac := by
  cases frac with
  | nil => exact .inl ⟨rfl, rfl⟩
  | cons b frac => exact .inr rfl

theorem readBinary64_renderFloat (h : x.word < infiniteWord) :
    Numeral.readBinary64 (Literal.renderFloat x) = some x := by
  obtain ⟨whole, frac, tail, e, hp, -, -, -⟩ := parts_renderFloat h
  have hnone : ∀ b ∈ tail, b ≠ 95 := by
    rintro b hb rfl
    exact absurd (hp.ends.mem hb) (by decide)
  rw [hp.eq]
  refine Numeral.readBinary64_parts hp.digits hp.ne_nil hp.places (withPoint_cases frac) hp.ends.power hnone ?_
  rw [hp.value]
  rcases Nat.eq_zero_or_pos x.significand with hm | hm
  · have hx := isNearest_value h
    rw [shortest_of_word_eq_zero ((significand_eq_zero_iff h).mp hm), Decimal.value, Nat.cast_zero, zero_mul]
    rwa [value, hm, Nat.cast_zero, zero_mul] at hx
  · exact isNearest_of_has h hm (has_shortest h hm)

theorem renderFloat_head (h : x.word < infiniteWord) :
    ∃ b rest, Literal.renderFloat x = b :: rest ∧ Text.isDigit b = true := by
  obtain ⟨whole, frac, tail, e, hp, -, -, -⟩ := parts_renderFloat h
  obtain ⟨b, w, rfl⟩ := List.exists_cons_of_ne_nil hp.ne_nil
  exact ⟨b, w ++ withPoint frac ++ tail, by rw [hp.eq]; rfl, hp.digits b (.head w)⟩

theorem isNumeric_renderFloat (h : x.word < infiniteWord) :
    ∀ b ∈ Literal.renderFloat x, isNumeric b = true := by
  obtain ⟨whole, frac, tail, e, hp, -, -, -⟩ := parts_renderFloat h
  rw [hp.eq]
  intro b hb
  rcases Numeral.mem_parts hp.digits hp.places hp.ends hb with hd | hd
  · exact isNumeric_of_isDigit hd
  · simp only [List.mem_cons, List.not_mem_nil, or_false] at hd
    rcases hd with rfl | rfl | rfl | rfl <;> decide

theorem renderFloat_inj {y : Binary64} (hx : x.word < infiniteWord) (hy : y.word < infiniteWord)
    (h : Literal.renderFloat x = Literal.renderFloat y) : x = y := by
  have hread := readBinary64_renderFloat hx
  rw [h, readBinary64_renderFloat hy] at hread
  exact (Option.some.inj hread).symm

end

end Binary64

end RegCode
