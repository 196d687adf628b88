import RegCode.Proofs.Layout
import RegCode.Proofs.Spelling

/-!
# Storing a chunk

What is written of a chunk is read again: its code, and for every constant the one it is widened to. Integers keep
their value and so do numbers of the 32-bit format, which is said by what a word of an interchange format stands
for. A constant of another type is reported, the first of them by its place.
-/

namespace RegCode

/-! ## Interchange formats -/

/-- What a word of an interchange format stands for: a number, told by its sign and its magnitude, an infinity, or
nothing that is a number, told by its fraction. -/
inductive Datum where
  | finite (negative : Bool) (magnitude : ℚ)
  | infinite (negative : Bool)
  | undefined (negative : Bool) (fraction : ℚ)

/-- The first bit of the fraction is set in what is no number. -/
def Datum.quiet : Datum → Datum
  | undefined negative fraction => undefined negative (if fraction < 1 / 2 then fraction + 1 / 2 else fraction)
  | d => d

/-- A binary format, by the width of its fields. -/
structure Interchange where
  exponentBits : Nat
  fractionBits : Nat

namespace Interchange

def binary32 : Interchange := ⟨8, 23⟩

def binary64 : Interchange := ⟨11, 52⟩

def bias (F : Interchange) : Int := 2 ^ (F.exponentBits - 1) - 1

/-- What three fields stand for. The greatest exponent is kept for what is not finite, and the least one for numbers
without a leading one. -/
def datum (F : Interchange) (negative : Bool) (field fraction : Nat) : Datum :=
  let part : ℚ := fraction / 2 ^ F.fractionBits
  if field = 2 ^ F.exponentBits - 1 then
    if fraction = 0 then .infinite negative else .undefined negative part
  else if field = 0 then .finite negative (part * 2 ^ (1 - F.bias))
  else .finite negative ((1 + part) * 2 ^ (field - F.bias))

def read (F : Interchange) (word : Nat) : Datum :=
  F.datum (word / 2 ^ (F.exponentBits + F.fractionBits) % 2 = 1) (word / 2 ^ F.fractionBits % 2 ^ F.exponentBits)
    (word % 2 ^ F.fractionBits)

section
variable (F : Interchange) (negative : Bool) {field fraction : Nat}

theorem datum_infinite : F.datum negative (2 ^ F.exponentBits - 1) 0 = .infinite negative := by
  simp [datum]

theorem datum_undefined (h : fraction ≠ 0) :
    F.datum negative (2 ^ F.exponentBits - 1) fraction = .undefined negative (fraction / 2 ^ F.fractionBits) := by
  simp [datum, h]

theorem datum_normal (hlast : field ≠ 2 ^ F.exponentBits - 1) (hfirst : field ≠ 0) :
    F.datum negative field fraction =
      .finite negative ((2 ^ F.fractionBits + fraction : Nat) * 2 ^ (field - F.bias - F.fractionBits)) := by
  rw [datum, if_neg hlast, if_neg hfirst, zpow_sub₀ two_ne_zero _ (F.fractionBits : Int), zpow_natCast]
  congr 1
  push_cast
  field_simp

theorem datum_subnormal (hlast : 0 ≠ 2 ^ F.exponentBits - 1) :
    F.datum negative 0 fraction = .finite negative (fraction * 2 ^ (1 - F.bias - F.fractionBits)) := by
  rw [datum, if_neg hlast, if_pos rfl, zpow_sub₀ two_ne_zero _ (F.fractionBits : Int), zpow_natCast]
  congr 1
  field_simp

end

end Interchange

theorem or_two_pow (n i : Nat) : n ||| 2 ^ i = if n / 2 ^ i % 2 = 1 then n else n + 2 ^ i := by
  have hlt : n % 2 ^ i < 2 ^ i := Nat.mod_lt _ (Nat.two_pow_pos i)
  have hn : n = 2 ^ i * (n / 2 ^ i) ||| n % 2 ^ i := by
    rw [← Nat.two_pow_add_eq_or_of_lt hlt, Nat.div_add_mod]
  by_cases h : n / 2 ^ i % 2 = 1
  · rw [if_pos h]
    have hbit : n.testBit i = true := by simp [Nat.testBit_eq_decide_div_mod_eq, h]
    apply Nat.eq_of_testBit_eq
    intro j
    by_cases hj : i = j
    · simp [← hj, hbit]
    · simp [hj]
  · rw [if_neg h]
    have hdouble : 2 ^ i * (n / 2 ^ i) = 2 ^ (i + 1) * (n / 2 ^ i / 2) := by
      rw [Nat.pow_succ, Nat.mul_assoc]
      congr 1
      omega
    have hsum : 2 ^ i * (n / 2 ^ i) + 2 ^ i = 2 ^ i * (n / 2 ^ i) ||| 2 ^ i := by
      rw [hdouble]
      exact Nat.two_pow_add_eq_or_of_lt (Nat.pow_lt_pow_right (by decide) (Nat.lt_succ_self i)) _
    calc n ||| 2 ^ i
      _ = (2 ^ i * (n / 2 ^ i) ||| n % 2 ^ i) ||| 2 ^ i := by rw [← hn]
      _ = (2 ^ i * (n / 2 ^ i) ||| 2 ^ i) ||| n % 2 ^ i := by ac_rfl
      _ = 2 ^ i * (n / 2 ^ i + 1) ||| n % 2 ^ i := by rw [← hsum, Nat.mul_succ]
      _ = 2 ^ i * (n / 2 ^ i + 1) + n % 2 ^ i := (Nat.two_pow_add_eq_or_of_lt hlt _).symm
      _ = n + 2 ^ i := by
        have := Nat.div_add_mod n (2 ^ i)
        rw [Nat.mul_succ]
        omega

namespace Binary64

open Interchange

theorem word_signed (negative : Bool) {n : Nat} (h : n < signBit) :
    (signed negative n).word = if negative then signBit + n else n := by
  have hb : signBit = 2 ^ 63 := rfl
  rw [signed, ofWord, word, UInt64.toNat_ofNat_of_lt']
  change _ < 2 ^ 64
  split <;> omega

theorem read_signed (negative : Bool) {field fraction : Nat} (hfield : field < 2 ^ 11)
    (hfraction : fraction < 2 ^ 52) :
    binary64.read (signed negative (field * hiddenBit + fraction)).word =
    binary64.datum negative field fraction := by
  have hlt : field * hiddenBit + fraction < signBit := by
    simp only [hiddenBit, signBit]
    omega
  rw [word_signed negative hlt]
  change binary64.datum (_ / 2 ^ 63 % 2 = 1) (_ / 2 ^ 52 % 2 ^ 11) (_ % 2 ^ 52) = _
  simp only [hiddenBit, signBit]
  congr 1
  · cases negative <;> simp <;> omega
  · split <;> omega
  · split <;> omega

theorem word_quiet (x : Binary64) : x.quiet.word = if x.word / 2 ^ 51 % 2 = 1 then x.word else x.word + 2 ^ 51 := by
  rw [quiet, word, UInt64.toNat_or]
  exact or_two_pow x.bits.toNat 51

theorem word_quiet_signed (negative : Bool) {fraction : Nat} (h : fraction < 2 ^ 52) :
    (signed negative (infiniteWord + fraction)).quiet.word =
      (signed negative (2047 * hiddenBit + if fraction < 2 ^ 51 then fraction + 2 ^ 51 else fraction)).word := by
  rw [word_quiet, word_signed, word_signed]
  · simp only [infiniteWord, signBit, hiddenBit]
    cases negative <;> simp only [if_true, Bool.false_eq_true, if_false] <;> split <;> split <;> omega
  · simp only [signBit, hiddenBit]
    split <;> omega
  · simp only [infiniteWord, signBit]
    omega

theorem read_quiet (negative : Bool) {fraction : Nat} (hlt : fraction < 2 ^ 23) :
    binary64.read (signed negative (infiniteWord + fraction * 0x20000000)).quiet.word =
      (Datum.undefined negative (fraction / 2 ^ 23)).quiet := by
  rw [word_quiet_signed negative (by omega), Datum.quiet]
  have hiff : (fraction : ℚ) / 2 ^ 23 < 1 / 2 ↔ fraction < 2 ^ 22 := by
    rw [div_lt_iff₀ (by positivity), ← @Nat.cast_lt ℚ]
    norm_num
  by_cases h : fraction < 2 ^ 22
  · rw [if_pos (by omega), if_pos (hiff.mpr h), read_signed negative (by decide) (by omega)]
    refine (datum_undefined binary64 negative (by omega)).trans ?_
    simp only [binary64]
    push_cast
    ring_nf
  · rw [if_neg (by omega), if_neg (mt hiff.mp h), read_signed negative (by decide) (by omega)]
    refine (datum_undefined binary64 negative (by omega)).trans ?_
    simp only [binary64]
    push_cast
    ring_nf

theorem read_infinity (negative : Bool) : binary64.read (infinity negative).word = .infinite negative := by
  have hword : infiniteWord = 2047 * hiddenBit + 0 := by decide
  rw [infinity, hword, read_signed negative (by decide) (by decide)]
  exact datum_infinite binary64 negative

theorem read_signed_zero (negative : Bool) : binary64.read (signed negative 0).word = .finite negative 0 := by
  have h := @read_signed negative 0 0 (by decide) (by decide)
  rw [datum_subnormal _ _ (by decide)] at h
  simpa using h

theorem read_normal (negative : Bool) {m k : Nat} (hle : 2 ^ 52 ≤ m) (hlt : m < 2 ^ 53) (hk : k < 2046) :
    binary64.read (signed negative (k * hiddenBit + m)).word = .finite negative (m * 2 ^ ((k : Int) - 1074)) := by
  have hword : k * hiddenBit + m = (k + 1) * hiddenBit + (m - 2 ^ 52) := by
    simp only [hiddenBit]
    omega
  have hlast : k + 1 ≠ 2 ^ binary64.exponentBits - 1 := by
    simp only [binary64]
    omega
  have hsig : 2 ^ binary64.fractionBits + (m - 2 ^ 52) = m := Nat.add_sub_cancel' hle
  have hscale : ((k + 1 : Nat) : Int) - binary64.bias - binary64.fractionBits = k - 1074 := by
    simp only [binary64, bias]
    push_cast
    omega
  rw [hword, read_signed negative (by omega) (by omega), datum_normal _ _ hlast (Nat.succ_ne_zero k), hsig, hscale]

theorem exists_shift {m : Nat} (hpos : 0 < m) (hlt : m < 2 ^ 53) :
    ∃ j ≤ 52, 2 ^ 52 ≤ m * 2 ^ j ∧ m * 2 ^ j < 2 ^ 53 := by
  have hne := Nat.pos_iff_ne_zero.mp hpos
  have hlog : m.log2 < 53 := (Nat.log2_lt hne).mpr hlt
  have h52 : 2 ^ m.log2 * 2 ^ (52 - m.log2) = 2 ^ 52 := by
    rw [← Nat.pow_add]
    congr 1
    omega
  have hle : 2 ^ m.log2 ≤ m := Nat.log2_self_le hne
  have hlt' : m < 2 ^ m.log2 * 2 := Nat.lt_log2_self
  refine ⟨52 - m.log2, by omega, ?_, ?_⟩
  · rw [← h52]
    exact Nat.mul_le_mul_right _ hle
  · have h := Nat.mul_lt_mul_of_pos_right hlt' (Nat.two_pow_pos (52 - m.log2))
    rw [Nat.mul_right_comm, h52] at h
    exact h

/-- A significand of 24 bits is kept, since it can be moved up to 53 bits and the scale down by as much. -/
theorem read_nearestScaled (negative : Bool) {m : Nat} {q : Int} (hm : m < 2 ^ 24) (hlo : -149 ≤ q)
    (hhi : q ≤ 104) :
    binary64.read (nearestScaled negative m q).word = .finite negative (m * 2 ^ q) := by
  have hdef : nearestScaled negative m q = nearest negative (scaleBy q m 1).1 (scaleBy q m 1).2 := rfl
  by_cases hzero : m = 0
  · have hscaled : (scaleBy q m 1).1 = 0 := by cases q <;> simp [scaleBy, hzero]
    rw [hdef, nearest, if_pos hscaled, read_signed_zero, hzero, Nat.cast_zero, zero_mul]
  obtain ⟨j, hj, hle, hlt⟩ := exists_shift (Nat.pos_iff_ne_zero.mpr hzero) (by omega)
  obtain ⟨k, hk⟩ : ∃ k : Nat, q - j + 1074 = k := ⟨(q - j + 1074).toNat, by omega⟩
  have hvalue : (m : ℚ) * 2 ^ q = ((m * 2 ^ j : Nat) : ℚ) * 2 ^ (q - j) := by
    rw [zpow_sub₀ two_ne_zero, zpow_natCast]
    push_cast
    field_simp
  have hquot : ((scaleBy q m 1).1 : ℚ) / (scaleBy q m 1).2 = ((m * 2 ^ j : Nat) : ℚ) * 2 ^ (q - j) := by
    rw [scaleBy_quotient, ← hvalue, Nat.cast_one, div_one]
  have hfinite : k * hiddenBit + m * 2 ^ j < infiniteWord := by
    simp only [hiddenBit, infiniteWord]
    omega
  have hscale : q - j = k - 1074 := by omega
  have hnear : nearest negative (scaleBy q m 1).1 (scaleBy q m 1).2 =
      signed negative (k * hiddenBit + m * 2 ^ j) := by
    refine nearest_amount negative (scaleBy_pos q m (by decide)) hfinite ?_
    rw [hquot, hscale]
    exact (amount_place (Nat.le_of_lt hlt) (.inl hle)).symm
  rw [hdef, hnear, read_normal negative hle hlt (by omega), hvalue, hscale]

/-- A number of the 32-bit format is widened to the same number, and what is no number is made quiet. -/
theorem read_ofWord32 (w : UInt32) : binary64.read (ofWord32 w).word = (binary32.read w.toNat).quiet := by
  have hsign : decide (w.toNat / 2 ^ 31 % 2 = 1) = decide (0x80000000 ≤ w.toNat) := by
    have := w.toNat_lt
    rw [decide_eq_decide]
    omega
  change _ = (binary32.datum (w.toNat / 2 ^ 31 % 2 = 1) (w.toNat / 0x800000 % 0x100) (w.toNat % 0x800000)).quiet
  rw [hsign, ofWord32]
  have hfield : w.toNat / 0x800000 % 0x100 < 256 := Nat.mod_lt _ (by decide)
  have hfraction : w.toNat % 0x800000 < 2 ^ 23 := Nat.mod_lt _ (by decide)
  generalize decide (0x80000000 ≤ w.toNat) = negative
  generalize w.toNat / 0x800000 % 0x100 = field at *
  generalize w.toNat % 0x800000 = fraction at *
  by_cases hlast : field = 255
  · subst hlast
    by_cases hzero : fraction = 0
    · rw [if_pos rfl, if_pos hzero, hzero, read_infinity]
      exact congrArg Datum.quiet (datum_infinite binary32 negative).symm
    · rw [if_pos rfl, if_neg hzero, read_quiet negative hfraction]
      exact congrArg Datum.quiet (datum_undefined binary32 negative hzero).symm
  · rw [if_neg hlast]
    by_cases hfirst : field = 0
    · subst hfirst
      rw [if_pos rfl, read_nearestScaled negative (by omega) (by decide) (by decide),
        datum_subnormal _ _ (by decide)]
      rfl
    · have hscale : (field : Int) - binary32.bias - (23 : Nat) = field - 150 := by
        simp only [binary32, bias]
        omega
      rw [if_neg hfirst, read_nearestScaled negative (by omega) (by omega) (by omega),
        datum_normal _ _ hlast hfirst, ← hscale]
      rfl

end Binary64

/-! ## Pools -/

namespace PoolValue

def isStored : PoolValue → Bool
  | const _ | word _ | int32 _ | float32 _ => true
  | uint8 _ | bool _ | absent | other _ => false

/-- The constant is the value, or the wide number that is the same. -/
inductive Widens : PoolValue → Const → Prop
  | const (k : Const) : Widens (.const k) k
  | word (v : Int64) : Widens (.word v) (.int v)
  | int32 {v : Int32} {w : Int64} : w.toInt = v.toInt → Widens (.int32 v) (.int w)
  | float32 {bits : UInt32} {x : Binary64} :
      Interchange.binary64.read x.word = (Interchange.binary32.read bits.toNat).quiet →
      Widens (.float32 bits) (.float x)

theorem widens_of_const? {v : PoolValue} {k : Const} (h : v.const? = some k) : v.Widens k := by
  cases v with
  | const =>
    cases h
    exact .const k
  | word n =>
    cases h
    exact .word n
  | int32 n =>
    cases h
    exact .int32 (Int32.toInt_toInt64 n)
  | float32 bits =>
    cases h
    exact .float32 (Binary64.read_ofWord32 bits)
  | uint8 | bool | absent | other => cases h

theorem isSome_const? (v : PoolValue) : v.const?.isSome = v.isStored := by
  cases v <;> rfl

theorem Widens.fits {v : PoolValue} {k : Const} (h : v.Widens k)
    (hs : ∀ s, v = .const (.str s) → s.length < 2 ^ 32) :
    k.Fits := by
  cases h with
  | const k =>
    cases k with
    | int | float => trivial
    | str s => exact hs s rfl
  | word | int32 | float32 => trivial

end PoolValue

theorem exists_widens {l : List PoolValue} (h : ∀ v ∈ l, v.isStored = true) :
    ∃ ks, l.map (·.const?) = ks.map some ∧ List.Forall₂ PoolValue.Widens l ks := by
  induction l with
  | nil => exact ⟨[], rfl, .nil⟩
  | cons v l ih =>
    obtain ⟨hv, hl⟩ := List.forall_mem_cons.mp h
    obtain ⟨ks, hks, hw⟩ := ih hl
    obtain ⟨k, hk⟩ := Option.isSome_iff_exists.mp (v.isSome_const?.trans hv)
    refine ⟨k :: ks, ?_, .cons (PoolValue.widens_of_const? hk) hw⟩
    rw [List.map_cons, List.map_cons, hk, hks]

theorem Image.storedOnto_error {l : List PoolValue} (h : ∃ v ∈ l, v.isStored = false) (acc : List Const)
    (index : Nat) :
    ∃ n v, l[n]? = some v ∧ v.isStored = false ∧ (∀ m w, m < n → l[m]? = some w → w.isStored = true) ∧
      storedOnto acc index l = .error ⟨index + n, v⟩ := by
  induction l generalizing acc index with
  | nil =>
    obtain ⟨v, hv, -⟩ := h
    cases hv
  | cons v l ih =>
    cases hk : v.const? with
    | none =>
      have hv : v.isStored = false := by rw [← v.isSome_const?, hk, Option.isSome_none]
      exact ⟨0, v, rfl, hv, fun m w hm => absurd hm (Nat.not_lt_zero m), by simp [storedOnto, hk]⟩
    | some k =>
      have hv : v.isStored = true := by rw [← v.isSome_const?, hk, Option.isSome_some]
      have hl : ∃ v ∈ l, v.isStored = false := by
        obtain ⟨w, hw, hw'⟩ := h
        rcases List.mem_cons.mp hw with rfl | hw
        · rw [hv] at hw'
          cases hw'
        · exact ⟨w, hw, hw'⟩
      obtain ⟨n, w, hn, hw, hbefore, he⟩ := ih hl (k :: acc) (index + 1)
      refine ⟨n + 1, w, hn, hw, ?_, ?_⟩
      · intro m u hm hu
        cases m with
        | zero =>
          cases hu
          exact hv
        | succ m => exact hbefore m u (Nat.lt_of_succ_lt_succ hm) hu
      · simp only [storedOnto, hk]
        rw [he, Nat.add_right_comm, Nat.add_assoc]

structure Chunk.Storable (c : Chunk) : Prop where
  stored : ∀ v ∈ c.consts, v.isStored = true
  consts : c.consts.size < 2 ^ 32
  code : c.code.size < 2 ^ 32
  strings : ∀ s, .const (.str s) ∈ c.consts → s.length < 2 ^ 32

theorem Chunk.Storable.fits {c : Chunk} (h : c.Storable) {ks : List Const}
    (hks : c.consts.toList.map (·.const?) = ks.map some) : Image.Fits ⟨1, ks, [⟨0, 0, 255, c.code.toList⟩]⟩ where
  consts := by
    have hlen := congrArg List.length hks
    rw [List.length_map, List.length_map, Array.length_toList] at hlen
    exact hlen ▸ h.consts
  const k hk := by
    have hmem : some k ∈ c.consts.toList.map (·.const?) := hks ▸ List.mem_map_of_mem hk
    obtain ⟨v, hv, hvk⟩ := List.mem_map.mp hmem
    apply (PoolValue.widens_of_const? hvk).fits
    intro s hs
    exact h.strings s (hs ▸ Array.mem_toList_iff.mp hv)
  functions := Nat.one_lt_two_pow (by decide)
  code f hf := by
    cases List.mem_singleton.mp hf
    exact h.code

/-- A chunk that can be stored is read again as it was written, with its constants widened. Of any other the first
constant that cannot be stored is reported, and nothing is written. -/
theorem encode_round_trip (c : Chunk) :
    (c.Storable → ∃ b i, c.encode = .ok b ∧ Image.decode b = .ok i ∧ i.version = 1 ∧
      List.Forall₂ PoolValue.Widens c.consts.toList i.consts ∧ i.functions = [⟨0, 0, 255, c.code.toList⟩] ∧
      i.chunk.code = c.code ∧ i.chunk.consts.toList = i.consts.map .const) ∧
    ((∃ v ∈ c.consts, v.isStored = false) → ∃ n v, c.consts[n]? = some v ∧ v.isStored = false ∧
      (∀ m w, m < n → c.consts[m]? = some w → w.isStored = true) ∧ c.encode = .error ⟨n, v⟩) := by
  constructor
  · intro h
    obtain ⟨ks, hks, hw⟩ := exists_widens fun v hv => h.stored v (Array.mem_toList_iff.mp hv)
    have henc : c.encode = .ok (Image.encode ⟨1, ks, [⟨0, 0, 255, c.code.toList⟩]⟩) := by
      rw [Chunk.encode, Image.ofChunk_ok hks]
      rfl
    refine ⟨_, _, henc, Image.decode_ok_iff.mpr ⟨rfl, h.fits hks, Image.encode_eq _⟩, rfl, hw, rfl, ?_, ?_⟩
    · simp [Image.chunk]
    · simp [Image.chunk]
  · intro h
    obtain ⟨v, hv, hstored⟩ := h
    obtain ⟨n, w, hn, hw, hbefore, he⟩ :=
      Image.storedOnto_error ⟨v, Array.mem_toList_iff.mpr hv, hstored⟩ [] 0
    rw [Nat.zero_add] at he
    simp only [Array.getElem?_toList] at hn hbefore
    refine ⟨n, w, hn, hw, hbefore, ?_⟩
    rw [Chunk.encode, Image.ofChunk, he]
    rfl

/-- An integer and a number of 32 bits, one of the machine's own width, and a string. -/
def narrowChunk : Chunk where
  code := #[.abx Op.loadK.code 0 2, .abc Op.halt.code 0 0 0]
  consts := #[.int32 (-5), .float32 0x3FC00000, .word 7, .const (.str [104, 105])]
  registers := 1

def mixedChunk : Chunk where
  consts := #[.const (.int 1), .bool true, .absent]

theorem narrow_round_trip : narrowChunk.Storable ∧
    (∃ b i, narrowChunk.encode = .ok b ∧ Image.decode b = .ok i ∧ i.chunk.code = narrowChunk.code) ∧
    ∃ n v, mixedChunk.consts[n]? = some v ∧ v.isStored = false ∧ mixedChunk.encode = .error ⟨n, v⟩ := by
  have h : narrowChunk.Storable := ⟨by decide, by decide, by decide, by simp [narrowChunk]⟩
  obtain ⟨b, i, hb, hi, -, -, -, hcode, -⟩ := (encode_round_trip narrowChunk).1 h
  obtain ⟨n, v, hn, hv, -, he⟩ := (encode_round_trip mixedChunk).2 ⟨.absent, by simp [mixedChunk], rfl⟩
  exact ⟨h, ⟨b, i, hb, hi, hcode⟩, n, v, hn, hv, he⟩

end RegCode
