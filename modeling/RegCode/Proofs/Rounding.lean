import RegCode.Number.Binary64
import Mathlib.Algebra.Order.Field.Power
import Mathlib.Data.Rat.Cast.Order
import Mathlib.Tactic.Linarith
import Mathlib.Tactic.NormNum
import Mathlib.Tactic.Positivity
import Mathlib.Tactic.Ring

/-!
# Correct rounding

A magnitude of the binary format is known by its word without the sign: the words follow the order of the
magnitudes, and between two words that follow each other there is no magnitude. `Rounds` says which word a rational
is rounded to: no other is nearer, and if another is as near, the last bit is zero. `nearest` finds it. A quotient
is counted in units of the last place of its binade, and rounded there it lies between the middles to the two words
next to it.
-/

namespace RegCode.Binary64

/-! ## Magnitudes -/

/-- How many times the least magnitude goes into the one with the word `w`, which is 52 bits of fraction below an
exponent. -/
def units (w : Nat) : Nat :=
  if w < 2 ^ 52 then w else (2 ^ 52 + w % 2 ^ 52) * 2 ^ (w / 2 ^ 52 - 1)

/-- The magnitude with the word `w`. Those of the words behind the finite ones continue the row. -/
def amount (w : Nat) : ℚ := units w * 2 ^ (-1074 : Int)

/-- The word of the finite magnitude that `r` is rounded to. From half a step above the largest one on there is
none. -/
structure Rounds (r : ℚ) (w : Nat) : Prop where
  finite : w < 0x7FF0000000000000
  range : r < 2 ^ 1024 - 2 ^ 970
  nearest : ∀ v < 0x7FF0000000000000, |r - amount w| ≤ |r - amount v|
  even : ∀ v < 0x7FF0000000000000, v ≠ w → |r - amount w| = |r - amount v| → w % 2 = 0

def IsNearest (negative : Bool) (r : ℚ) (x : Binary64) : Prop :=
  ∃ w, Rounds r w ∧ x = ⟨UInt64.ofNat (if negative then 0x8000000000000000 + w else w)⟩

theorem units_place {e m : Nat} (hm : m ≤ 2 ^ 53) (h : 2 ^ 52 ≤ m ∨ e = 0) :
    units (e * 2 ^ 52 + m) = m * 2 ^ e := by
  unfold units
  by_cases hlow : m < 2 ^ 52
  · rw [h.resolve_left (Nat.not_le.mpr hlow), Nat.zero_mul, Nat.zero_add, if_pos hlow, Nat.pow_zero, Nat.mul_one]
  rw [if_neg (by omega)]
  rcases Nat.lt_or_ge m (2 ^ 53) with hlt | hge
  · have hdiv : (e * 2 ^ 52 + m) / 2 ^ 52 - 1 = e := by omega
    have hmod : 2 ^ 52 + (e * 2 ^ 52 + m) % 2 ^ 52 = m := by omega
    rw [hdiv, hmod]
  · have hdiv : (e * 2 ^ 52 + m) / 2 ^ 52 - 1 = e + 1 := by omega
    have hmod : 2 ^ 52 + (e * 2 ^ 52 + m) % 2 ^ 52 = 2 ^ 52 := by omega
    rw [hdiv, hmod, Nat.le_antisymm hm hge, Nat.pow_succ]
    omega

theorem exists_place (w : Nat) : ∃ e m, w = e * 2 ^ 52 + m ∧ m < 2 ^ 53 ∧ (2 ^ 52 ≤ m ∨ e = 0) := by
  rcases Nat.lt_or_ge w (2 ^ 52) with h | h
  · exact ⟨0, w, by omega, by omega, .inr rfl⟩
  · exact ⟨w / 2 ^ 52 - 1, 2 ^ 52 + w % 2 ^ 52, by omega, by omega, .inl (by omega)⟩

theorem amount_place {e m : Nat} (hm : m ≤ 2 ^ 53) (h : 2 ^ 52 ≤ m ∨ e = 0) :
    amount (e * 2 ^ 52 + m) = m * 2 ^ ((e : Int) - 1074) := by
  rw [amount, units_place hm h, sub_eq_add_neg, zpow_add₀ (by norm_num), zpow_natCast, Nat.cast_mul, Nat.cast_pow,
    mul_assoc]
  rfl

theorem amount_strictMono : StrictMono amount := by
  refine strictMono_nat_of_lt_succ fun w => ?_
  obtain ⟨e, m, rfl, hm, h⟩ := exists_place w
  rw [Nat.add_assoc, amount_place (Nat.le_of_lt hm) h, amount_place hm (h.imp_left fun h => by omega)]
  push_cast
  have h2 : (0 : ℚ) < 2 ^ ((e : Int) - 1074) := by positivity
  linarith

/-! ## Middles -/

def middle (w : Nat) : ℚ := (amount w + amount (w + 1)) / 2

theorem middle_place {e m : Nat} (hm : m < 2 ^ 53) (h : 2 ^ 52 ≤ m ∨ e = 0) :
    middle (e * 2 ^ 52 + m) = (m + 1 / 2) * 2 ^ ((e : Int) - 1074) := by
  rw [middle, Nat.add_assoc, amount_place (Nat.le_of_lt hm) h, amount_place hm (h.imp_left fun h => by omega)]
  push_cast
  ring

theorem middle_strictMono : StrictMono middle := by
  intro v w h
  have h₁ := amount_strictMono h
  have h₂ := amount_strictMono (Nat.succ_lt_succ h)
  unfold middle
  linarith

theorem middle_largest : middle (0x7FF0000000000000 - 1) = 2 ^ 1024 - 2 ^ 970 := by
  have h : middle (2045 * 2 ^ 52 + (2 ^ 53 - 1)) = _ := middle_place (by norm_num) (.inl (by norm_num))
  have h971 : (2 : ℚ) ^ (((2045 : Nat) : Int) - 1074) = 2 ^ 970 * 2 := by
    rw [← pow_succ, ← zpow_natCast]
    rfl
  rw [h971] at h
  rw [show 2 ^ 1024 = (2 : ℚ) ^ 970 * 2 ^ 54 from (pow_add 2 970 54)]
  calc middle (0x7FF0000000000000 - 1) = _ := h
    _ = 2 ^ 970 * 2 ^ 54 - 2 ^ 970 := by
      generalize (2 : ℚ) ^ 970 = u
      norm_num
      ring

/-- Between the middles to the two words next to `w`, and on one of them only if `w` is even. -/
structure Between (r : ℚ) (w : Nat) : Prop where
  low : ∀ v, v + 1 = w → middle v ≤ r
  high : r ≤ middle w
  odd : w % 2 = 1 → (∀ v, v + 1 = w → middle v < r) ∧ r < middle w

theorem abs_sub_of_middle_le {a b r : ℚ} (hab : a < b) (h : (a + b) / 2 ≤ r) :
    |r - b| ≤ |r - a| ∧ (|r - b| = |r - a| → r = (a + b) / 2) := by
  rw [abs_of_pos (show 0 < r - a by linarith)]
  rcases abs_cases (r - b) with ⟨he, -⟩ | ⟨he, -⟩
  · rw [he]
    exact ⟨by linarith, fun heq => by linarith⟩
  · rw [he]
    exact ⟨by linarith, fun heq => by linarith⟩

theorem abs_sub_of_le_middle {a b r : ℚ} (hab : a < b) (h : r ≤ (a + b) / 2) :
    |r - a| ≤ |r - b| ∧ (|r - a| = |r - b| → r = (a + b) / 2) := by
  rw [abs_sub_comm r a, abs_sub_comm r b, abs_of_pos (show 0 < b - r by linarith)]
  rcases abs_cases (a - r) with ⟨he, -⟩ | ⟨he, -⟩
  · rw [he]
    exact ⟨by linarith, fun heq => by linarith⟩
  · rw [he]
    exact ⟨by linarith, fun heq => by linarith⟩

section
variable {r : ℚ} {w : Nat}

theorem Between.nearest (h : Between r w) (v : Nat) :
    |r - amount w| ≤ |r - amount v| ∧ (v ≠ w → |r - amount w| = |r - amount v| → w % 2 = 0) := by
  rcases Nat.lt_trichotomy v w with hv | rfl | hv
  · obtain ⟨u, rfl⟩ : ∃ u, w = u + 1 := ⟨w - 1, by omega⟩
    have hle := amount_strictMono.monotone (Nat.le_of_lt_succ hv)
    have hlow := h.low u rfl
    have hmid : (amount v + amount (u + 1)) / 2 ≤ middle u := by
      unfold middle
      linarith
    obtain ⟨hnear, htie⟩ := abs_sub_of_middle_le (amount_strictMono hv) (hmid.trans hlow)
    refine ⟨hnear, fun _ he => ?_⟩
    have hr := htie he
    by_contra hodd
    have := (h.odd (by omega)).1 u rfl
    linarith
  · exact ⟨le_rfl, fun hne => absurd rfl hne⟩
  · have hle := amount_strictMono.monotone (Nat.succ_le_of_lt hv)
    have hmid : middle w ≤ (amount w + amount v) / 2 := by
      unfold middle
      linarith
    obtain ⟨hnear, htie⟩ := abs_sub_of_le_middle (amount_strictMono hv) (h.high.trans hmid)
    refine ⟨hnear, fun _ he => ?_⟩
    have hr := htie he
    by_contra hodd
    have := (h.odd (by omega)).2
    linarith

theorem Between.lt_of_finite (h : Between r w) (hw : w < 0x7FF0000000000000) : r < 2 ^ 1024 - 2 ^ 970 := by
  rw [← middle_largest]
  rcases Nat.lt_or_ge w (0x7FF0000000000000 - 1) with hlt | hge
  · exact h.high.trans_lt (middle_strictMono hlt)
  · obtain rfl : w = 0x7FF0000000000000 - 1 := by omega
    exact (h.odd rfl).2

theorem Between.finite_of_lt (h : Between r w) (hr : r < 2 ^ 1024 - 2 ^ 970) : w < 0x7FF0000000000000 := by
  by_contra hw
  have hmono := middle_strictMono.monotone (show 0x7FF0000000000000 - 1 ≤ w - 1 by omega)
  have hlow := h.low (w - 1) (by omega)
  rw [middle_largest] at hmono
  exact absurd hr (not_lt.mpr (hmono.trans hlow))

theorem Between.rounds (h : Between r w) (hw : w < 0x7FF0000000000000) : Rounds r w :=
  ⟨hw, h.lt_of_finite hw, fun v _ => (h.nearest v).1, fun v _ => (h.nearest v).2⟩

/-- Two words to which `r` is rounded are as near as each other and both even, so that a nearer one lies between. -/
theorem Rounds.unique {v : Nat} (h : Rounds r v) (h' : Rounds r w) : v = w := by
  wlog hlt : v < w generalizing v w
  · rcases Nat.lt_or_eq_of_le (Nat.not_lt.mp hlt) with hgt | heq
    · exact (this h' h hgt).symm
    · exact heq.symm
  have hv := h.nearest w h'.finite
  have heq := le_antisymm hv (h'.nearest v h.finite)
  have heven := h.even w h'.finite (by omega) heq
  have heven' := h'.even v h.finite (by omega) heq.symm
  have h₁ : amount v < amount (v + 1) := amount_strictMono (Nat.lt_succ_self v)
  have h₂ := amount_strictMono (show v + 1 < w by omega)
  have hnear := h.nearest (v + 1) (Nat.lt_trans (by omega) h'.finite)
  have hr : r = (amount v + amount w) / 2 := by
    rcases le_total ((amount v + amount w) / 2) r with hle | hle
    · exact (abs_sub_of_middle_le (h₁.trans h₂) hle).2 heq.symm
    · exact (abs_sub_of_le_middle (h₁.trans h₂) hle).2 heq
  rw [abs_of_pos (show 0 < r - amount v by linarith)] at hnear
  exact absurd hnear (not_le.mpr (abs_lt.mpr ⟨by linarith, by linarith⟩))

end

/-! ## Quotients -/

theorem scaleBy_pos (e : Int) (num : Nat) {den : Nat} (h : 0 < den) : 0 < (scaleBy e num den).2 := by
  cases e with
  | ofNat e => exact h
  | negSucc e => exact Nat.mul_pos h (Nat.pow_pos (by decide))

theorem scaleBy_quotient (e : Int) (num den : Nat) :
    ((scaleBy e num den).1 : ℚ) / (scaleBy e num den).2 = num / den * 2 ^ e := by
  cases e with
  | ofNat e =>
    simp only [scaleBy, Nat.pow_eq, Nat.cast_mul, Nat.cast_pow, Nat.cast_ofNat, Int.ofNat_eq_natCast, zpow_natCast]
    ring
  | negSucc e =>
    simp only [scaleBy, Nat.pow_eq, Nat.cast_mul, Nat.cast_pow, Nat.cast_ofNat, zpow_negSucc]
    rw [div_mul_eq_div_div, div_eq_mul_inv _ ((2 : ℚ) ^ (e + 1))]

theorem log2_bounds {n : Nat} (h : 0 < n) : (2 : ℚ) ^ (n.log2 : Int) ≤ n ∧ (n : ℚ) < 2 ^ ((n.log2 : Int) + 1) := by
  constructor
  · rw [zpow_natCast]
    exact_mod_cast Nat.log2_self_le (Nat.pos_iff_ne_zero.mp h)
  · have hlt : n < 2 ^ (n.log2 + 1) := Nat.lt_log2_self
    exact_mod_cast hlt

theorem floorLog2_bounds {num den : Nat} (hn : 0 < num) (hd : 0 < den) :
    (2 : ℚ) ^ floorLog2 num den ≤ num / den ∧ (num : ℚ) / den < 2 ^ (floorLog2 num den + 1) := by
  have hd' : (0 : ℚ) < den := by exact_mod_cast hd
  obtain ⟨hn₁, hn₂⟩ := log2_bounds hn
  obtain ⟨hd₁, hd₂⟩ := log2_bounds hd
  have hq := scaleBy_quotient (-((num.log2 : Int) - den.log2)) num den
  have hpos : (0 : ℚ) < (scaleBy (-((num.log2 : Int) - den.log2)) num den).2 := by
    exact_mod_cast scaleBy_pos _ num hd
  have h2 : (0 : ℚ) < 2 ^ ((num.log2 : Int) - den.log2) := by positivity
  rw [zpow_neg, ← div_eq_mul_inv] at hq
  unfold floorLog2
  simp only
  split
  · rename_i hle
    have hle' : (1 : ℚ) ≤ num / den / 2 ^ ((num.log2 : Int) - den.log2) := by
      rw [← hq, one_le_div hpos]
      exact_mod_cast hle
    rw [one_le_div h2] at hle'
    refine ⟨hle', ?_⟩
    calc (num : ℚ) / den < 2 ^ ((num.log2 : Int) + 1) / den := by gcongr
      _ ≤ 2 ^ ((num.log2 : Int) + 1) / 2 ^ (den.log2 : Int) := by gcongr
      _ = 2 ^ ((num.log2 : Int) - den.log2 + 1) := by
        rw [← zpow_sub₀ (by norm_num)]
        congr 1
        ring
  · rename_i hlt
    have hlt' : (num : ℚ) / den / 2 ^ ((num.log2 : Int) - den.log2) < 1 := by
      rw [← hq, div_lt_one hpos]
      exact_mod_cast Nat.not_le.mp hlt
    rw [div_lt_one h2] at hlt'
    rw [sub_add_cancel]
    refine ⟨?_, hlt'⟩
    calc (2 : ℚ) ^ ((num.log2 : Int) - den.log2 - 1)
      _ = 2 ^ (num.log2 : Int) / 2 ^ ((den.log2 : Int) + 1) := by
        rw [← zpow_sub₀ (by norm_num)]
        congr 1
        ring
      _ ≤ num / 2 ^ ((den.log2 : Int) + 1) := by gcongr
      _ ≤ num / den := by gcongr

theorem roundDiv_bounds (n : Nat) {d : Nat} (hd : 0 < d) :
    (roundDiv n d : ℚ) - 1 / 2 ≤ n / d ∧ (n : ℚ) / d ≤ roundDiv n d + 1 / 2 ∧
      (roundDiv n d % 2 = 1 → (roundDiv n d : ℚ) - 1 / 2 < n / d ∧ (n : ℚ) / d < roundDiv n d + 1 / 2) := by
  have hd' : (0 : ℚ) < d := by exact_mod_cast hd
  have hn : (n : ℚ) = (n / d : Nat) * d + (n % d : Nat) := by exact_mod_cast (Nat.div_add_mod' n d).symm
  have hr : ((n % d : Nat) : ℚ) < d := by exact_mod_cast Nat.mod_lt n hd
  rw [le_div_iff₀ hd', div_le_iff₀ hd', lt_div_iff₀ hd', div_lt_iff₀ hd', hn]
  unfold roundDiv
  dsimp only
  split
  · rename_i h
    have h' : 2 * ((n % d : Nat) : ℚ) < d := by exact_mod_cast h
    refine ⟨by linarith, by linarith, fun _ => ⟨by linarith, by linarith⟩⟩
  · split
    · rename_i h
      have h' : (d : ℚ) < 2 * (n % d : Nat) := by exact_mod_cast h
      push_cast
      refine ⟨by linarith, by linarith, fun _ => ⟨by linarith, by linarith⟩⟩
    · have h' : 2 * ((n % d : Nat) : ℚ) = d := by
        exact_mod_cast (by omega : 2 * (n % d) = d)
      rcases Nat.mod_two_eq_zero_or_one (n / d) with hk | hk
      · rw [hk, Nat.add_zero]
        exact ⟨by linarith, by linarith, fun hodd => by omega⟩
      · rw [hk]
        push_cast
        exact ⟨by linarith, by linarith, fun hodd => by omega⟩

theorem middle_lt_amount_succ (w : Nat) : middle w < amount (w + 1) := by
  have h : amount w < amount (w + 1) := amount_strictMono (Nat.lt_succ_self w)
  unfold middle
  linarith

theorem amount_lt_middle (w : Nat) : amount w < middle w := by
  have h : amount w < amount (w + 1) := amount_strictMono (Nat.lt_succ_self w)
  unfold middle
  linarith

section
variable {r : ℚ} {e m : Nat}

/-- A place in the binade of `r` no more than half a unit away is the one. Behind the last place of a binade, and in
front of the first, the next word is in another, but `r` is not beyond this one. -/
theorem between_of_rounded (hlt : r < 2 ^ 53 * 2 ^ ((e : Int) - 1074))
    (hge : 2 ^ 52 * 2 ^ ((e : Int) - 1074) ≤ r ∨ e = 0) (hlow : ((m : ℚ) - 1 / 2) * 2 ^ ((e : Int) - 1074) ≤ r)
    (hhigh : r ≤ (m + 1 / 2) * 2 ^ ((e : Int) - 1074))
    (hodd : m % 2 = 1 → ((m : ℚ) - 1 / 2) * 2 ^ ((e : Int) - 1074) < r ∧ r < (m + 1 / 2) * 2 ^ ((e : Int) - 1074)) :
    Between r (e * 2 ^ 52 + m) := by
  have hu : (0 : ℚ) < 2 ^ ((e : Int) - 1074) := by positivity
  have hm : m ≤ 2 ^ 53 := by
    have h : (m : ℚ) - 1 / 2 < 2 ^ 53 := lt_of_mul_lt_mul_right (hlow.trans_lt hlt) hu.le
    have h' : (m : ℚ) < (2 ^ 53 + 1 : Nat) := by
      push_cast
      linarith
    exact Nat.le_of_lt_succ (by exact_mod_cast h')
  have hplace : 2 ^ 52 ≤ m ∨ e = 0 := by
    refine hge.imp_left fun hge => ?_
    have h : (2 : ℚ) ^ 52 ≤ m + 1 / 2 := le_of_mul_le_mul_right (hge.trans hhigh) hu
    have h' : ((2 ^ 52 : Nat) : ℚ) < (m + 1 : Nat) := by
      push_cast
      linarith
    exact Nat.le_of_lt_succ (by exact_mod_cast h')
  have hparity : (e * 2 ^ 52 + m) % 2 = m % 2 := by omega
  -- what is said of both sides is said of `≤`, and for an odd place of `<`
  have hupper : r ≤ middle (e * 2 ^ 52 + m) ∧ (m % 2 = 1 → r < middle (e * 2 ^ 52 + m)) := by
    rcases Nat.lt_or_eq_of_le hm with hm' | rfl
    · rw [middle_place hm' hplace]
      exact ⟨hhigh, fun h => (hodd h).2⟩
    · have h := amount_lt_middle (e * 2 ^ 52 + 2 ^ 53)
      rw [amount_place le_rfl hplace] at h
      push_cast at h
      exact ⟨(hlt.trans h).le, fun _ => hlt.trans h⟩
  have hlower : ∀ v, v + 1 = e * 2 ^ 52 + m → middle v ≤ r ∧ (m % 2 = 1 → middle v < r) := by
    intro v hv
    by_cases hfirst : 2 ^ 52 < m ∨ e = 0
    · obtain ⟨k, rfl⟩ : ∃ k, m = k + 1 := ⟨m - 1, by omega⟩
      obtain rfl : v = e * 2 ^ 52 + k := by omega
      rw [middle_place (by omega) (hfirst.imp_left fun h => by omega)]
      push_cast at hlow hodd
      rw [show (k : ℚ) + 1 / 2 = k + 1 - 1 / 2 by ring]
      exact ⟨hlow, fun h => (hodd h).1⟩
    · obtain ⟨hmle, hepos⟩ := not_or.mp hfirst
      obtain rfl : m = 2 ^ 52 := Nat.le_antisymm (Nat.not_lt.mp hmle) (hplace.resolve_right hepos)
      have h := middle_lt_amount_succ v
      rw [hv, amount_place hm hplace] at h
      push_cast at h
      have h' := h.trans_le (hge.resolve_right hepos)
      exact ⟨h'.le, fun _ => h'⟩
  refine ⟨fun v hv => (hlower v hv).1, hupper.1, fun h => ?_⟩
  rw [hparity] at h
  exact ⟨fun v hv => (hlower v hv).2 h, hupper.2 h⟩

end

theorem between_quotient {num den : Nat} (hn : 0 < num) (hd : 0 < den) {q : Int}
    (hq : max (floorLog2 num den - 52) (-1074) = q) :
    Between ((num : ℚ) / den)
      ((q + 1074).toNat * 2 ^ 52 + roundDiv (scaleBy (-q) num den).1 (scaleBy (-q) num den).2) := by
  obtain ⟨hlow, hhigh⟩ := floorLog2_bounds hn hd
  obtain ⟨e, rfl⟩ : ∃ e : Nat, q = (e : Int) - 1074 := ⟨(q + 1074).toNat, by omega⟩
  have hu : (0 : ℚ) < 2 ^ ((e : Int) - 1074) := by positivity
  obtain ⟨hm₁, hm₂, hodd⟩ := roundDiv_bounds (scaleBy (-((e : Int) - 1074)) num den).1
    (scaleBy_pos (-((e : Int) - 1074)) num hd)
  rw [scaleBy_quotient, zpow_neg, ← div_eq_mul_inv, le_div_iff₀ hu] at hm₁
  rw [scaleBy_quotient, zpow_neg, ← div_eq_mul_inv, div_le_iff₀ hu] at hm₂
  rw [scaleBy_quotient, zpow_neg, ← div_eq_mul_inv, lt_div_iff₀ hu, div_lt_iff₀ hu] at hodd
  rw [show ((e : Int) - 1074 + 1074).toNat = e by omega]
  have hpow (k : Nat) : (2 : ℚ) ^ k * 2 ^ ((e : Int) - 1074) = 2 ^ ((k : Int) + ((e : Int) - 1074)) := by
    rw [zpow_add₀ (by norm_num), zpow_natCast]
  refine between_of_rounded ?_ ?_ hm₁ hm₂ hodd
  · rw [hpow]
    exact hhigh.trans_le (zpow_le_zpow_right₀ (by norm_num) (by push_cast; omega))
  · by_cases he : e = 0
    · exact .inr he
    · rw [hpow]
      exact .inl ((zpow_le_zpow_right₀ (by norm_num) (by push_cast; omega)).trans hlow)

theorem between_zero : Between 0 0 where
  low v hv := by omega
  high := by
    have h := amount_lt_middle 0
    simp only [amount, units] at h
    norm_num at h
    exact h.le
  odd h := by omega

theorem signed_eq (negative : Bool) (w : Nat) :
    signed negative w = ⟨UInt64.ofNat (if negative then 0x8000000000000000 + w else w)⟩ := rfl

theorem isInfinite_signed (negative : Bool) {w : Nat} (hw : w ≤ 0x7FF0000000000000) :
    (signed negative w).isInfinite = decide (w = 0x7FF0000000000000) := by
  have hword : (signed negative w).magnitude = w := by
    cases negative with
    | false =>
      show UInt64.toNat (UInt64.ofNat w) % signBit = w
      rw [UInt64.toNat_ofNat', Nat.mod_eq_of_lt (show w < 2 ^ 64 by omega)]
      exact Nat.mod_eq_of_lt (by unfold signBit; omega)
    | true =>
      show UInt64.toNat (UInt64.ofNat (signBit + w)) % signBit = w
      rw [UInt64.toNat_ofNat', Nat.mod_eq_of_lt (show signBit + w < 2 ^ 64 by unfold signBit; omega),
        Nat.add_mod_left]
      exact Nat.mod_eq_of_lt (by unfold signBit; omega)
  rw [isInfinite, hword]
  rfl

theorem exists_between_nearest (negative : Bool) (num : Nat) {den : Nat} (hd : 0 < den) :
    ∃ w, Between ((num : ℚ) / den) w ∧ nearest negative num den = signed negative (min w 0x7FF0000000000000) := by
  unfold nearest
  split
  · rename_i h0
    rw [h0, Nat.cast_zero, zero_div]
    exact ⟨0, between_zero, rfl⟩
  · rename_i h0
    exact ⟨_, between_quotient (Nat.pos_of_ne_zero h0) hd rfl, rfl⟩

/-- The nearest number, unless it is infinite, is the one that the quotient is rounded to. -/
theorem nearest_iff (negative : Bool) (num : Nat) {den : Nat} (hd : 0 < den) (x : Binary64) :
    nearest negative num den = x ∧ x.isInfinite = false ↔ IsNearest negative ((num : ℚ) / den) x := by
  obtain ⟨w, hw, hx⟩ := exists_between_nearest negative num hd
  rw [hx]
  constructor
  · rintro ⟨rfl, hfin⟩
    rw [isInfinite_signed negative (Nat.min_le_right ..), decide_eq_false_iff_not] at hfin
    have hlt : w < 0x7FF0000000000000 := by omega
    rw [Nat.min_eq_left (Nat.le_of_lt hlt)]
    exact ⟨w, hw.rounds hlt, rfl⟩
  · rintro ⟨v, hv, rfl⟩
    have hlt := hw.finite_of_lt hv.range
    obtain rfl := (hw.rounds hlt).unique hv
    rw [Nat.min_eq_left (Nat.le_of_lt hlt), ← signed_eq, isInfinite_signed negative (Nat.le_of_lt hlt)]
    exact ⟨rfl, decide_eq_false (Nat.ne_of_lt hlt)⟩

/-! ## Middles have few digits -/

section
variable {r r' low high : ℚ} {w : Nat}

theorem exists_between (hr : 0 ≤ r) : ∃ w, Between r w := by
  obtain ⟨w, hw, -⟩ := exists_between_nearest false r.num.natAbs r.den_pos
  rw [Nat.cast_natAbs, abs_of_nonneg (Rat.num_nonneg.mpr hr), Rat.num_div_den] at hw
  exact ⟨w, hw⟩

theorem Rounds.between (hr : 0 ≤ r) (h : Rounds r w) : Between r w := by
  obtain ⟨v, hv⟩ := exists_between hr
  rwa [(hv.rounds (hv.finite_of_lt h.range)).unique h] at hv

theorem Rounds.congr (hgap : ∀ v < 0x7FF0000000000000, middle v ≤ low ∨ high ≤ middle v) (hlow : 0 ≤ low)
    (hr : low < r ∧ r < high) (hr' : low < r' ∧ r' < high) (h : Rounds r w) : Rounds r' w := by
  have hb := h.between (hlow.trans hr.1.le)
  have hup : r' < middle w := by
    rcases hgap w h.finite with hm | hm
    · exact absurd (hr.1.trans_le hb.high) (not_lt.mpr hm)
    · exact hr'.2.trans_le hm
  have hdown : ∀ v, v + 1 = w → middle v < r' := by
    intro v hv
    rcases hgap v (by have := h.finite; omega) with hm | hm
    · exact hm.trans_lt hr'.1
    · exact absurd ((hb.low v hv).trans_lt hr.2) (not_lt.mpr hm)
  exact Between.rounds ⟨fun v hv => (hdown v hv).le, hup.le, fun _ => ⟨hdown, hup⟩⟩ h.finite

theorem isNearest_congr {negative : Bool} {x : Binary64}
    (hgap : ∀ v < 0x7FF0000000000000, middle v ≤ low ∨ high ≤ middle v) (hlow : 0 ≤ low)
    (hr : low < r ∧ r < high) (hr' : low < r' ∧ r' < high) : IsNearest negative r x ↔ IsNearest negative r' x := by
  constructor
  · rintro ⟨w, hw, hx⟩
    exact ⟨w, hw.congr hgap hlow hr hr', hx⟩
  · rintro ⟨w, hw, hx⟩
    exact ⟨w, hw.congr hgap hlow hr' hr, hx⟩

/-- A middle is a multiple of a power of two. Counted in steps of a power of `2 * c` it is an integer, unless the
step is so coarse that it comes to little. -/
theorem middle_off_grid {c a : Nat} (hc : 0 < c) (ha : 2 ^ 1024 ≤ a) (ha' : 2 ^ 53 * c ^ 1074 ≤ a) (p : Int)
    (hw : w < 0x7FF0000000000000) :
    middle w ≤ a * (2 * c) ^ p ∨ (a + 1) * (2 * c) ^ p ≤ middle w := by
  have hc' : (1 : ℚ) ≤ c := by exact_mod_cast hc
  have ha₁ : (2 : ℚ) ^ 1024 ≤ a := by exact_mod_cast ha
  have ha₂ : (2 : ℚ) ^ 53 * c ^ 1074 ≤ a := by exact_mod_cast ha'
  cases p with
  | ofNat p =>
    have hpow : (1 : ℚ) ≤ (2 * c) ^ p := one_le_pow₀ (by linarith)
    have hmax : middle w ≤ 2 ^ 1024 - 2 ^ 970 := by
      rw [← middle_largest]
      exact middle_strictMono.monotone (by omega)
    have hle : middle w ≤ a := hmax.trans ((sub_le_self _ (by positivity)).trans ha₁)
    rw [Int.ofNat_eq_natCast, zpow_natCast]
    exact .inl (hle.trans (le_mul_of_one_le_right (by positivity) hpow))
  | negSucc n =>
    have hpos : (0 : ℚ) < (2 * c) ^ (n + 1) := by positivity
    rw [zpow_negSucc, ← div_eq_mul_inv, ← div_eq_mul_inv, le_div_iff₀ hpos, div_le_iff₀ hpos]
    obtain ⟨e, m, rfl, hm, hplace⟩ := exists_place w
    have htwo : (2 : ℚ) ^ ((e : Int) - 1074) * 2 ^ (n + 1) = 2 ^ ((e : Int) + (n + 1 : Nat) - 1074) := by
      rw [← zpow_natCast, ← zpow_add₀ (by norm_num)]
      congr 1
      ring
    have hsteps : middle (e * 2 ^ 52 + m) * (2 * c) ^ (n + 1) =
        (m + 1 / 2) * c ^ (n + 1) * 2 ^ ((e : Int) + (n + 1 : Nat) - 1074) := by
      rw [middle_place hm hplace, mul_pow, ← htwo]
      ring
    rw [hsteps]
    rcases Nat.lt_or_ge (e + (n + 1)) 1075 with hlt | hge
    · have hm' : (m : ℚ) + 1 / 2 ≤ 2 ^ 53 := by
        have h : (m : ℚ) + 1 ≤ 2 ^ 53 := by exact_mod_cast hm
        linarith
      have hone : (2 : ℚ) ^ ((e : Int) + (n + 1 : Nat) - 1074) ≤ 1 :=
        zpow_le_one_of_nonpos₀ (by norm_num) (by omega)
      refine .inl (le_trans ?_ ha₂)
      calc (m + 1 / 2 : ℚ) * c ^ (n + 1) * 2 ^ ((e : Int) + (n + 1 : Nat) - 1074)
        _ ≤ (m + 1 / 2) * c ^ (n + 1) := mul_le_of_le_one_right (by positivity) hone
        _ ≤ 2 ^ 53 * c ^ 1074 := mul_le_mul hm' (pow_le_pow_right₀ hc' (by omega)) (by positivity) (by positivity)
    · obtain ⟨k, hk⟩ : ∃ k, e + (n + 1) = k + 1075 := ⟨e + (n + 1) - 1075, by omega⟩
      have hint : (m + 1 / 2 : ℚ) * c ^ (n + 1) * 2 ^ ((e : Int) + (n + 1 : Nat) - 1074) =
          ((2 * m + 1) * c ^ (n + 1) * 2 ^ k : Nat) := by
        rw [show (e : Int) + (n + 1 : Nat) - 1074 = ((k + 1 : Nat) : Int) by omega, zpow_natCast, pow_succ]
        push_cast
        ring
      rw [hint]
      exact_mod_cast Nat.lt_or_ge a _ |>.symm

end

end RegCode.Binary64
