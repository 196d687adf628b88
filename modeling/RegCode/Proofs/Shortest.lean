import RegCode.Number.Shortest
import RegCode.Proofs.Spelling

/-!
# Decimals that read back

The numbers that lie in the interval of a finite number of the binary format are those that it is nearest to. The
search for the shortest decimal finds one of them: seventeen digits are enough, because a grid of that many is finer
than the gap between two numbers of the format. So what is written reads back, plainly or with an exponent, and no
two numbers are written alike.
-/

namespace RegCode

namespace Decimal

def value (d : Decimal) : ℚ := d.digits * 10 ^ d.exponent

theorem value_trimWithin (fuel : Nat) (d : Decimal) : (trimWithin fuel d).value = d.value := by
  induction fuel generalizing d with
  | zero => rfl
  | succ fuel ih =>
    unfold trimWithin
    split
    · rename_i h
      rw [ih]
      have hdigits : (d.digits : ℚ) = (d.digits / 10 : Nat) * 10 := by
        exact_mod_cast (Nat.div_mul_cancel (Nat.dvd_of_mod_eq_zero h)).symm
      unfold value
      dsimp only
      rw [hdigits, zpow_add₀ (by norm_num), zpow_one]
      ring
    · rfl

/-! ## Intervals and grids -/

namespace Interval

variable {i : Interval}

def Has (i : Interval) (r : ℚ) : Prop :=
  if i.closed then (i.low : ℚ) / i.unit ≤ r ∧ r ≤ (i.high : ℚ) / i.unit
  else (i.low : ℚ) / i.unit < r ∧ r < (i.high : ℚ) / i.unit

theorem Has.le {r : ℚ} (h : i.Has r) : (i.low : ℚ) / i.unit ≤ r ∧ r ≤ (i.high : ℚ) / i.unit := by
  unfold Has at h
  split at h
  · exact h
  · exact ⟨h.1.le, h.2.le⟩

theorem has_of_lt {r : ℚ} (hl : (i.low : ℚ) / i.unit < r) (hh : r < (i.high : ℚ) / i.unit) : i.Has r := by
  unfold Has
  split
  · exact ⟨hl.le, hh.le⟩
  · exact ⟨hl, hh⟩

theorem Has.between {a b r : ℚ} (ha : i.Has a) (hb : i.Has b) (har : a ≤ r) (hrb : r ≤ b) : i.Has r := by
  unfold Has at *
  split at ha
  · rename_i h
    rw [if_pos h] at hb ⊢
    exact ⟨ha.1.trans har, hrb.trans hb.2⟩
  · rename_i h
    rw [if_neg h] at hb ⊢
    exact ⟨ha.1.trans_le har, hrb.trans_lt hb.2⟩

theorem unit_onGrid_pos (h : 0 < i.unit) (g : Int) : 0 < (i.onGrid g).unit := by
  cases g with
  | ofNat g => exact Nat.mul_pos h (Nat.pow_pos (by decide))
  | negSucc g => exact h

/-- On a grid everything is counted in its steps. -/
theorem onGrid_quotient (i : Interval) (g : Int) :
    ((i.onGrid g).low : ℚ) / (i.onGrid g).unit = i.low / i.unit / 10 ^ g ∧
      ((i.onGrid g).value : ℚ) / (i.onGrid g).unit = i.value / i.unit / 10 ^ g ∧
        ((i.onGrid g).high : ℚ) / (i.onGrid g).unit = i.high / i.unit / 10 ^ g := by
  cases g with
  | ofNat g =>
    simp only [onGrid, Nat.pow_eq, Nat.cast_mul, Nat.cast_pow, Nat.cast_ofNat, Int.ofNat_eq_natCast, zpow_natCast,
      div_div, and_self]
  | negSucc g =>
    simp only [onGrid, Nat.pow_eq, Nat.cast_mul, Nat.cast_pow, Nat.cast_ofNat, zpow_negSucc, div_inv_eq_mul,
      div_mul_eq_mul_div, and_self]

theorem closed_onGrid (i : Interval) (g : Int) : (i.onGrid g).closed = i.closed := by
  cases g <;> rfl

theorem holds_iff (h : 0 < i.unit) (c : Nat) : i.holds c = true ↔ i.Has c := by
  have hu : (0 : ℚ) < i.unit := by exact_mod_cast h
  unfold holds Has
  split
  · simp only [Bool.and_eq_true, decide_eq_true_eq]
    rw [div_le_iff₀ hu, le_div_iff₀ hu]
    norm_cast
  · simp only [Bool.and_eq_true, decide_eq_true_eq]
    rw [div_lt_iff₀ hu, lt_div_iff₀ hu]
    norm_cast

theorem has_onGrid (i : Interval) (g : Int) (r : ℚ) : (i.onGrid g).Has r ↔ i.Has (r * 10 ^ g) := by
  have hg : (0 : ℚ) < 10 ^ g := by positivity
  obtain ⟨hl, -, hh⟩ := i.onGrid_quotient g
  unfold Has
  rw [closed_onGrid, hl, hh, div_le_iff₀ hg, le_div_iff₀ hg, div_lt_iff₀ hg, lt_div_iff₀ hg]

theorem holds_of_hit {c : Nat} (h : i.hit = some c) : i.holds c = true := by
  unfold hit at h
  dsimp only at h
  split at h
  · rename_i hc hc'
    cases h
    split
    · exact hc
    · split
      · exact hc'
      · rcases Nat.mod_two_eq_zero_or_one (i.value / i.unit) with h0 | h1
        · rw [h0]
          exact hc
        · rw [h1]
          exact hc'
  · cases h
    assumption
  · cases h
    assumption
  · cases h

theorem hit_ne_none (h : i.holds (i.value / i.unit) = true ∨ i.holds (i.value / i.unit + 1) = true) :
    i.hit ≠ none := by
  unfold hit
  dsimp only
  split
  · simp
  · simp
  · simp
  · rename_i hc hc'
    rw [hc, hc'] at h
    simp at h

/-- Of two neighbours the nearer one is no more than half a step away. -/
theorem hit_of_fine (h : 0 < i.unit) (hl : (i.low : ℚ) / i.unit < i.value / i.unit - 1 / 2)
    (hh : (i.value : ℚ) / i.unit + 1 / 2 < i.high / i.unit) : i.hit ≠ none := by
  have hu : (0 : ℚ) < i.unit := by exact_mod_cast h
  have hle : ((i.value / i.unit : Nat) : ℚ) ≤ i.value / i.unit := by
    rw [le_div_iff₀ hu]
    exact_mod_cast Nat.div_mul_le_self i.value i.unit
  have hlt : (i.value : ℚ) / i.unit < (i.value / i.unit : Nat) + 1 := by
    rw [div_lt_iff₀ hu]
    exact_mod_cast Nat.lt_mul_of_div_lt (Nat.lt_succ_self (i.value / i.unit)) h
  apply hit_ne_none
  rw [holds_iff h, holds_iff h]
  push_cast
  rcases le_or_gt ((i.value : ℚ) / i.unit) ((i.value / i.unit : Nat) + 1 / 2) with hmid | hmid
  · exact .inl (has_of_lt (by linarith) (by linarith))
  · exact .inr (has_of_lt (by linarith) (by linarith))

theorem has_search (h : 0 < i.unit) {fuel : Nat} {g : Int} (hhit : ∃ k < fuel, (i.onGrid (g - k)).hit ≠ none) :
    i.Has (i.search fuel g).value := by
  induction fuel generalizing g with
  | zero =>
    obtain ⟨k, hk, -⟩ := hhit
    exact absurd hk (Nat.not_lt_zero k)
  | succ fuel ih =>
    unfold search
    cases hg : (i.onGrid g).hit with
    | some c =>
      have hc := (holds_iff (unit_onGrid_pos h g) c).mp (holds_of_hit hg)
      dsimp only
      rw [value_trimWithin]
      exact (has_onGrid i g c).mp hc
    | none =>
      obtain ⟨k, hk, hne⟩ := hhit
      cases k with
      | zero =>
        rw [Nat.cast_zero, sub_zero] at hne
        exact absurd hg hne
      | succ k =>
        refine ih ⟨k, Nat.lt_of_succ_lt_succ hk, ?_⟩
        rwa [Nat.cast_succ, add_comm, ← sub_sub] at hne

theorem reaches_iff (h : 0 < i.unit) (x : Int) : i.reaches x = true ↔ (10 : ℚ) ^ x ≤ i.value / i.unit := by
  have hu : (0 : ℚ) < (i.onGrid x).unit := by exact_mod_cast unit_onGrid_pos h x
  rw [← one_le_div (by positivity : (0 : ℚ) < 10 ^ x), ← (i.onGrid_quotient x).2.1, one_le_div hu, reaches,
    decide_eq_true_eq]
  norm_cast

/-- The quotient 30103 / 100000 is the decimal logarithm of two, closely enough for the exponents of the format. -/
theorem ten_pow_le_two_pow : (∀ n < 1024, 10 ^ (n * 30103 / 100000) ≤ 2 ^ n * 10) ∧
    ∀ n < 1075, 2 ^ n ≤ 10 ^ ((n * 30103 + 99999) / 100000) := by
  decide +kernel

theorem zpow_estimate_le {l : Int} (hlow : -1074 ≤ l) (hhigh : l < 1024) :
    (10 : ℚ) ^ ((l * 30103).fdiv 100000 - 1) ≤ 2 ^ l := by
  cases l with
  | ofNat n =>
    have hn := ten_pow_le_two_pow.1 n (Int.ofNat_lt.mp hhigh)
    have hfloor : (Int.ofNat n * 30103).fdiv 100000 = (n * 30103 / 100000 : Nat) := by
      rw [Int.fdiv_eq_ediv_of_nonneg _ (by decide), Int.ofNat_eq_natCast]
      omega
    rw [hfloor, zpow_sub₀ (by norm_num), zpow_one, div_le_iff₀ (by norm_num), Int.ofNat_eq_natCast, zpow_natCast,
      zpow_natCast]
    exact_mod_cast hn
  | negSucc n =>
    have hn := ten_pow_le_two_pow.2 (n + 1) (by omega)
    have hfloor : (Int.negSucc n * 30103).fdiv 100000 = -(((n + 1) * 30103 + 99999) / 100000 : Nat) := by
      rw [Int.fdiv_eq_ediv_of_nonneg _ (by decide)]
      omega
    have hstep : (10 : ℚ) ^ (-(((n + 1) * 30103 + 99999) / 100000 : Nat) - 1 : Int) ≤
        10 ^ (-(((n + 1) * 30103 + 99999) / 100000 : Nat) : Int) :=
      zpow_le_zpow_right₀ (by norm_num) (by omega)
    rw [hfloor]
    refine hstep.trans ?_
    rw [zpow_neg, zpow_natCast, zpow_negSucc]
    gcongr
    exact_mod_cast hn

theorem zpow_floorLog10_le (hv : 0 < i.value) (h : 0 < i.unit) (hlow : -1074 ≤ Binary64.floorLog2 i.value i.unit)
    (hhigh : Binary64.floorLog2 i.value i.unit < 1024) : (10 : ℚ) ^ i.floorLog10 ≤ i.value / i.unit := by
  unfold floorLog10
  dsimp only
  split
  · exact (reaches_iff h _).mp ‹_›
  · split
    · exact (reaches_iff h _).mp ‹_›
    · exact (zpow_estimate_le hlow hhigh).trans (Binary64.floorLog2_bounds hv h).1

end Interval

end Decimal

/-! ## Rounding -/

namespace Binary64

section
variable {x : Binary64}

/-- The part of the unit in the last place that the interval reaches below the number. -/
def gap (x : Binary64) : ℚ := if x.significand = hiddenBit ∧ 1 < x.exponentField then 1 / 4 else 1 / 2

theorem gap_cases (x : Binary64) : x.gap = 1 / 4 ∧ x.significand = 2 ^ 52 ∧ -1074 < x.scale ∨
    x.gap = 1 / 2 ∧ (x.significand = 2 ^ 52 → x.scale = -1074) := by
  unfold gap
  split
  · rename_i h
    refine .inl ⟨rfl, h.1, ?_⟩
    rw [scale, Nat.max_eq_left (Nat.le_of_lt h.2)]
    omega
  · rename_i h
    refine .inr ⟨rfl, fun hm => ?_⟩
    have he : ¬1 < x.exponentField := fun he => h ⟨hm, he⟩
    rw [scale, Nat.max_eq_right (Nat.not_lt.mp he)]
    rfl

theorem gap_bounds (x : Binary64) : 0 < x.gap ∧ x.gap ≤ 1 / 2 := by
  unfold gap
  split <;> norm_num

theorem unit_interval_pos (x : Binary64) : 0 < x.interval.unit := by
  unfold interval
  dsimp only
  split
  · exact Nat.one_pos
  · exact Nat.pow_pos (by decide)

theorem closed_interval (x : Binary64) : x.interval.closed = decide (x.significand % 2 = 0) := by
  unfold interval
  dsimp only
  split <;> rfl

theorem interval_quotient (hm : 0 < x.significand) :
    (x.interval.low : ℚ) / x.interval.unit = (x.significand - x.gap) * 2 ^ x.scale ∧
      (x.interval.value : ℚ) / x.interval.unit = x.value ∧
        (x.interval.high : ℚ) / x.interval.unit = (x.significand + 1 / 2) * 2 ^ x.scale := by
  have hbelow :
      ((4 * x.significand - (if x.significand = hiddenBit ∧ 1 < x.exponentField then 1 else 2) : Nat) : ℚ) =
      4 * (x.significand - x.gap) := by
    unfold gap
    split
    · rw [Nat.cast_sub (by omega)]
      push_cast
      ring
    · rw [Nat.cast_sub (by omega)]
      push_cast
      ring
  have hscale : (2 : ℚ) ^ x.scale = 4 * 2 ^ (x.scale - 2) := by
    rw [zpow_sub₀ (by norm_num)]
    norm_num
    ring
  unfold value interval
  dsimp only
  rw [hscale]
  cases x.scale - 2 with
  | ofNat e =>
    simp only [Nat.pow_eq, Nat.cast_mul, Nat.cast_pow, Nat.cast_add, Nat.cast_ofNat, Nat.cast_one, div_one, hbelow,
      Int.ofNat_eq_natCast, zpow_natCast]
    refine ⟨?_, ?_, ?_⟩ <;> ring
  | negSucc e =>
    simp only [Nat.pow_eq, Nat.cast_mul, Nat.cast_pow, Nat.cast_add, Nat.cast_ofNat, hbelow, zpow_negSucc]
    refine ⟨?_, ?_, ?_⟩ <;> ring

theorem has_interval_value (hm : 0 < x.significand) : x.interval.Has x.value := by
  obtain ⟨hl, -, hh⟩ := interval_quotient hm
  have h2 : (0 : ℚ) < 2 ^ x.scale := by positivity
  have hgap := x.gap_bounds
  refine Decimal.Interval.has_of_lt ?_ ?_
  · rw [hl, value]
    gcongr
    linarith
  · rw [hh, value]
    gcongr
    linarith

theorem Has.significand_bounds {r : ℚ} (hm : 0 < x.significand) (hr : x.interval.Has r) :
    x.significand - x.gap ≤ r / 2 ^ x.scale ∧ r / 2 ^ x.scale ≤ x.significand + 1 / 2 ∧
      (x.significand % 2 = 1 → x.significand - x.gap < r / 2 ^ x.scale ∧
      r / 2 ^ x.scale < x.significand + 1 / 2) := by
  obtain ⟨hl, -, hh⟩ := interval_quotient hm
  have h2 : (0 : ℚ) < 2 ^ x.scale := by positivity
  obtain ⟨hle, hge⟩ := hr.le
  rw [hl, ← le_div_iff₀ h2] at hle
  rw [hh, ← div_le_iff₀ h2] at hge
  refine ⟨hle, hge, fun hodd => ?_⟩
  unfold Decimal.Interval.Has at hr
  rw [closed_interval, if_neg (by simp [hodd]), hl, hh, ← lt_div_iff₀ h2, ← div_lt_iff₀ h2] at hr
  exact hr

/-- The interval of a number reaches from the middle below it to the middle above it. -/
theorem between_of_has (h : x.word < infiniteWord) (hm : 0 < x.significand) {r : ℚ} (hr : x.interval.Has r) :
    Between r x.word := by
  have hf := fields_of_word_lt h
  obtain ⟨e, hscale, hword, hplace⟩ := hf.place
  obtain ⟨hlow, hhigh, hodd⟩ := Has.significand_bounds hm hr
  have hu : (0 : ℚ) < 2 ^ x.scale := by positivity
  rw [le_div_iff₀ hu] at hlow
  rw [div_le_iff₀ hu] at hhigh
  rw [lt_div_iff₀ hu, div_lt_iff₀ hu] at hodd
  have hmiddle : middle x.word = (x.significand + 1 / 2) * 2 ^ x.scale := by
    rw [hword, middle_place hf.lt hplace, hscale]
  have hbelow : ∀ v, v + 1 = x.word → middle v = (x.significand - x.gap) * 2 ^ x.scale := by
    intro v hv
    rcases x.gap_cases with ⟨hg, hs, hpos⟩ | ⟨hg, hs⟩
    · -- a power of two, with the binade below it in front
      obtain ⟨f, rfl⟩ : ∃ f, e = f + 1 := ⟨e - 1, by omega⟩
      obtain rfl : v = f * 2 ^ 52 + (2 ^ 53 - 1) := by omega
      have hhalf : (2 : ℚ) ^ x.scale = 2 * 2 ^ ((f : Int) - 1074) := by
        rw [hscale, ← zpow_one_add₀ (by norm_num)]
        congr 1
        push_cast
        ring
      rw [middle_place (by norm_num) (.inl (by norm_num)), hg, hs, hhalf]
      push_cast
      ring
    · obtain ⟨k, hk⟩ : ∃ k, x.significand = k + 1 := ⟨x.significand - 1, by omega⟩
      obtain rfl : v = e * 2 ^ 52 + k := by omega
      rw [middle_place (by have := hf.lt; omega) (by omega), hg, hk, hscale]
      push_cast
      ring
  refine ⟨fun v hv => ?_, ?_, fun ho => ?_⟩
  · rw [hbelow v hv]
    exact hlow
  · rw [hmiddle]
    exact hhigh
  · have hodd := hodd (by omega)
    rw [hmiddle]
    refine ⟨fun v hv => ?_, hodd.2⟩
    rw [hbelow v hv]
    exact hodd.1

theorem isNearest_of_has (h : x.word < infiniteWord) (hm : 0 < x.significand) {r : ℚ} (hr : x.interval.Has r) :
    IsNearest false r x :=
  (between_of_has h hm hr).isNearest h

theorem value_bounds (h : x.word < infiniteWord) (hm : 0 < x.significand) :
    (2 : ℚ) ^ (-1074 : Int) ≤ x.value ∧ x.value < 2 ^ (1024 : Int) := by
  have hf := fields_of_word_lt h
  have hm' : (1 : ℚ) ≤ x.significand := by exact_mod_cast hm
  have hlt : (x.significand : ℚ) < 2 ^ (53 : Int) := by exact_mod_cast hf.lt
  have hlow : (2 : ℚ) ^ (-1074 : Int) ≤ 2 ^ x.scale := zpow_le_zpow_right₀ (by norm_num) hf.lowest
  have hpos : (0 : ℚ) < 2 ^ x.scale := by positivity
  unfold value
  constructor
  · calc (2 : ℚ) ^ (-1074 : Int) ≤ 1 * 2 ^ x.scale := by rwa [one_mul]
      _ ≤ x.significand * 2 ^ x.scale := by gcongr
  · calc (x.significand : ℚ) * 2 ^ x.scale < 2 ^ (53 : Int) * 2 ^ x.scale := by gcongr
      _ = 2 ^ (53 + x.scale) := (zpow_add₀ (by norm_num) _ _).symm
      _ ≤ 2 ^ (1024 : Int) := zpow_le_zpow_right₀ (by norm_num) (by have := hf.highest; omega)

/-- The largest and the smallest magnitudes, and powers of ten beyond them. -/
theorem value_limits (h : x.word < infiniteWord) (hm : 0 < x.significand) :
    (10 : ℚ) ^ Numeral.decimalBottom < x.value / 2 ∧ 2 * x.value < 10 ^ (Numeral.decimalTop - 1) := by
  have hpow : ∀ p ∈ [(1075, 330), (1025, 309)], 2 ^ p.1 < 10 ^ p.2 := by decide +kernel
  have hzpow {a b : Nat} (hab : (a, b) ∈ [(1075, 330), (1025, 309)]) : (2 : ℚ) ^ (a : Int) < 10 ^ (b : Int) := by
    rw [zpow_natCast, zpow_natCast]
    exact_mod_cast hpow (a, b) hab
  obtain ⟨hlow, hhigh⟩ := value_bounds h hm
  constructor
  · rw [lt_div_iff₀ (by norm_num)]
    refine lt_of_lt_of_le ?_ hlow
    have hinv : (10 : ℚ) ^ (-(330 : Nat) : Int) < 2 ^ (-(1075 : Nat) : Int) := by
      rw [zpow_neg, zpow_neg]
      exact inv_strictAnti₀ (by positivity) (hzpow (by simp))
    calc (10 : ℚ) ^ Numeral.decimalBottom * 2 < 2 ^ (-(1075 : Nat) : Int) * 2 :=
          mul_lt_mul_of_pos_right hinv two_pos
      _ = 2 ^ (-1074 : Int) := (zpow_add_one₀ (by norm_num) _).symm
  · calc 2 * x.value < 2 * 2 ^ (1024 : Int) := mul_lt_mul_of_pos_left hhigh two_pos
      _ = 2 ^ ((1025 : Nat) : Int) := (zpow_one_add₀ (by norm_num) _).symm
      _ < 10 ^ (Numeral.decimalTop - 1) := hzpow (b := 309) (by simp)

theorem significand_eq_zero_iff (h : x.word < infiniteWord) : x.significand = 0 ↔ x.word = 0 := by
  have hf := fields_of_word_lt h
  constructor
  · intro hm
    have hscale := hf.normal.resolve_left (by rw [hm]; decide)
    rw [← hf.word, hm, hscale]
    rfl
  · intro hw
    have hword := hf.word
    rw [hw] at hword
    omega

theorem shortest_eq (h : x.word < infiniteWord) (hm : 0 < x.significand) :
    x.shortest = x.interval.search 17 x.interval.floorLog10 := by
  have hmag : x.magnitude = x.word := Nat.mod_eq_of_lt (Nat.lt_trans h (by decide))
  have hzero : x.isZero = false := by
    rw [isZero, hmag, beq_eq_false_iff_ne]
    exact fun hw => Nat.pos_iff_ne_zero.mp hm ((significand_eq_zero_iff h).mpr hw)
  rw [shortest, if_neg (by simp [hzero])]

/-- The search begins at a power of ten that is not above the number. -/
theorem floorLog10_interval (h : x.word < infiniteWord) (hm : 0 < x.significand) :
    -325 ≤ x.interval.floorLog10 ∧ (10 : ℚ) ^ x.interval.floorLog10 ≤ x.value := by
  have hunit := x.unit_interval_pos
  have hunit' : (0 : ℚ) < x.interval.unit := by exact_mod_cast hunit
  obtain ⟨-, hv, -⟩ := interval_quotient hm
  obtain ⟨hlow, hhigh⟩ := value_bounds h hm
  have hvalue : 0 < x.interval.value := by
    have hpos : (0 : ℚ) < x.interval.value / x.interval.unit := by
      rw [hv]
      exact lt_of_lt_of_le (by positivity) hlow
    exact_mod_cast (div_pos_iff_of_pos_right hunit').mp hpos
  rw [← hv] at hlow hhigh
  have hlog := le_floorLog2_of hvalue hunit hlow
  constructor
  · unfold Decimal.Interval.floorLog10
    dsimp only
    rw [Int.fdiv_eq_ediv_of_nonneg _ (by decide)]
    split
    · omega
    · split <;> omega
  · rw [← hv]
    exact Decimal.Interval.zpow_floorLog10_le hvalue hunit hlog (floorLog2_lt_of hvalue hunit hhigh)

/-- A step of a grid with seventeen digits is less than the unit in the last place. -/
theorem hit_finest (h : x.word < infiniteWord) (hm : 0 < x.significand) :
    (x.interval.onGrid (x.interval.floorLog10 - 16)).hit ≠ none := by
  have hf := fields_of_word_lt h
  obtain ⟨hl, hv, hh⟩ := interval_quotient hm
  obtain ⟨-, hten⟩ := floorLog10_interval h hm
  have h2 : (0 : ℚ) < 2 ^ x.scale := by positivity
  have hlt : (x.significand : ℚ) * 2 ^ x.scale ≤ 2 ^ 53 * 2 ^ x.scale := by
    gcongr
    exact_mod_cast hf.lt.le
  have hstep : (10 : ℚ) ^ (x.interval.floorLog10 - 16) ≤ x.significand * 2 ^ x.scale / 10 ^ 16 := by
    rw [value] at hten
    rw [zpow_sub₀ (by norm_num)]
    gcongr
    exact_mod_cast le_refl _
  have hgap : (10 : ℚ) ^ (x.interval.floorLog10 - 16) / 2 < x.gap * 2 ^ x.scale := by
    rcases x.gap_cases with ⟨hg, hs, -⟩ | ⟨hg, -⟩
    · rw [hs] at hstep
      push_cast at hstep
      rw [hg]
      linarith
    · rw [hg]
      linarith
  have hg : (0 : ℚ) < 10 ^ (x.interval.floorLog10 - 16) := by positivity
  obtain ⟨hl', hv', hh'⟩ := x.interval.onGrid_quotient (x.interval.floorLog10 - 16)
  apply Decimal.Interval.hit_of_fine (Decimal.Interval.unit_onGrid_pos x.unit_interval_pos _)
  · rw [hl', hv', hl, hv, value, div_lt_iff₀ hg, sub_mul (_ / _), div_mul_cancel₀ _ hg.ne']
    linarith
  · rw [hh', hv', hh, hv, value, lt_div_iff₀ hg, add_mul, div_mul_cancel₀ _ hg.ne']
    linarith

theorem has_shortest (h : x.word < infiniteWord) (hm : 0 < x.significand) : x.interval.Has x.shortest.value := by
  rw [shortest_eq h hm]
  exact Decimal.Interval.has_search x.unit_interval_pos ⟨16, by decide, hit_finest h hm⟩

theorem isInfinite_of_word_lt (h : x.word < infiniteWord) : x.isInfinite = false := by
  have hmag : x.magnitude = x.word := Nat.mod_eq_of_lt (Nat.lt_trans h (by decide))
  rw [isInfinite, hmag, beq_eq_false_iff_ne]
  omega

theorem limits_of_has (h : x.word < infiniteWord) (hm : 0 < x.significand) {r : ℚ} (hr : x.interval.Has r) :
    (10 : ℚ) ^ Numeral.decimalBottom < r ∧ r < 10 ^ (Numeral.decimalTop - 1) := by
  obtain ⟨hlow, hhigh, -⟩ := Has.significand_bounds hm hr
  obtain ⟨hbottom, htop⟩ := value_limits h hm
  have h2 : (0 : ℚ) < 2 ^ x.scale := by positivity
  have hm' : (1 : ℚ) ≤ x.significand := by exact_mod_cast hm
  have hgap := x.gap_bounds
  rw [le_div_iff₀ h2] at hlow
  rw [div_le_iff₀ h2] at hhigh
  have hhalf : x.value / 2 ≤ r := by
    refine le_trans ?_ hlow
    rw [value, mul_div_right_comm]
    gcongr
    linarith
  have htwice : r ≤ 2 * x.value := by
    refine hhigh.trans ?_
    rw [value, ← mul_assoc]
    gcongr
    linarith
  exact ⟨hbottom.trans_le hhalf, htwice.trans_lt htop⟩

end

end Binary64

end RegCode
