import Mathlib.Algebra.Group.Int.Defs
import Mathlib.Algebra.Group.Nat.Defs
import RegCode.Image.Codec

/-!
# The layout of an image

Reading and writing are measured against one description of the bytes. Numbers stand highest byte first: the magic
number, the version, the number of constants and the constants, the number of functions and the functions. A decoder
reads such a part exactly if it accepts it whatever follows, leaves what follows, and accepts nothing else. That a
sequence of decoders does so comes from its members.
-/

namespace RegCode

/-- A number in so many bytes, the highest one first. -/
def bigEndian : (width n : Nat) → Bytes
  | 0, _ => []
  | width + 1, n => UInt8.ofNat (n / 256 ^ width) :: bigEndian width n

def Const.layout : Const → Bytes
  | .int v => bigEndian 1 1 ++ bigEndian 8 (v.toInt % 2 ^ 64).toNat
  | .float x => bigEndian 1 2 ++ bigEndian 8 x.word
  | .str s => bigEndian 1 3 ++ bigEndian 4 s.length ++ s

def Function.layout (f : Function) : Bytes :=
  bigEndian 4 f.nameIndex.toNat ++ bigEndian 1 f.argCount.toNat ++ bigEndian 1 f.registerCount.toNat ++
    bigEndian 4 f.code.length ++ f.code.flatMap (bigEndian 4 ·.word.toNat)

def Image.layout (i : Image) : Bytes :=
  bigEndian 4 0x45564D00 ++ bigEndian 4 i.version.toNat ++ bigEndian 4 i.consts.length ++
    i.consts.flatMap (·.layout) ++ bigEndian 4 i.functions.length ++ i.functions.flatMap (·.layout)

def Const.Fits : Const → Prop
  | .int _ | .float _ => True
  | .str s => s.length < 2 ^ 32

instance : (k : Const) → Decidable k.Fits
  | .int _ | .float _ => inferInstanceAs (Decidable True)
  | .str s => inferInstanceAs (Decidable (s.length < 2 ^ 32))

/-- All lengths are numbers of 32 bits. -/
structure Image.Fits (i : Image) : Prop where
  consts : i.consts.length < 2 ^ 32
  const : ∀ k ∈ i.consts, k.Fits
  functions : i.functions.length < 2 ^ 32
  code : ∀ f ∈ i.functions, f.code.length < 2 ^ 32

/-! ## Numbers as bytes -/

@[simp] theorem length_bigEndian (width n : Nat) : (bigEndian width n).length = width := by
  induction width with
  | zero => rfl
  | succ width ih => rw [bigEndian, List.length_cons, ih]

theorem bigEndian_add_mul (width n k : Nat) : bigEndian width (n + k * 256 ^ width) = bigEndian width n := by
  induction width generalizing k with
  | zero => rfl
  | succ width ih =>
    have hk : k * 256 ^ (width + 1) = k * 256 * 256 ^ width := by rw [Nat.pow_succ, Nat.mul_assoc, Nat.mul_comm 256]
    have hdiv : (n + k * 256 * 256 ^ width) / 256 ^ width = n / 256 ^ width + k * 256 :=
      Nat.add_mul_div_right _ _ (Nat.pow_pos (by decide))
    rw [bigEndian, bigEndian, hk, ih, hdiv]
    congr 1
    apply UInt8.toNat_inj.mp
    simp

theorem bigEndian_mod (width n : Nat) : bigEndian width (n % 256 ^ width) = bigEndian width n := by
  have h := bigEndian_add_mul width (n % 256 ^ width) (n / 256 ^ width)
  rw [Nat.mod_add_div'] at h
  exact h.symm

theorem foldl_bytes (b : Bytes) (n : Nat) :
    b.foldl (fun n x => n * 256 + x.toNat) n = n * 256 ^ b.length + numberOf b := by
  unfold numberOf
  induction b generalizing n with
  | nil => simp
  | cons x b ih =>
    rw [List.foldl_cons, List.foldl_cons, ih, ih (0 * 256 + x.toNat), List.length_cons, Nat.pow_succ']
    rw [Nat.zero_mul, Nat.zero_add, Nat.add_mul, Nat.mul_assoc, Nat.add_assoc]

theorem numberOf_cons (x : UInt8) (b : Bytes) : numberOf (x :: b) = numberOf b + x.toNat * 256 ^ b.length := by
  rw [numberOf, List.foldl_cons, foldl_bytes, Nat.zero_mul, Nat.zero_add, Nat.add_comm]

theorem numberOf_lt (b : Bytes) : numberOf b < 256 ^ b.length := by
  induction b with
  | nil => decide
  | cons x b ih =>
    have hx := x.toNat_lt
    have : x.toNat * 256 ^ b.length ≤ 255 * 256 ^ b.length := Nat.mul_le_mul_right _ (by omega)
    rw [numberOf_cons, List.length_cons, Nat.pow_succ]
    omega

theorem bigEndian_numberOf (b : Bytes) : bigEndian b.length (numberOf b) = b := by
  induction b with
  | nil => rfl
  | cons x b ih =>
    have hdiv : (numberOf b + x.toNat * 256 ^ b.length) / 256 ^ b.length = x.toNat := by
      rw [Nat.add_mul_div_right _ _ (Nat.pow_pos (by decide)), Nat.div_eq_of_lt (numberOf_lt b), Nat.zero_add]
    rw [numberOf_cons, List.length_cons, bigEndian, bigEndian_add_mul, ih, hdiv, UInt8.ofNat_toNat]

theorem numberOf_bigEndian {width n : Nat} (h : n < 256 ^ width) : numberOf (bigEndian width n) = n := by
  induction width generalizing n with
  | zero =>
    rw [Nat.pow_zero] at h
    rw [Nat.lt_one_iff.mp h]
    rfl
  | succ width ih =>
    have hpos : 0 < 256 ^ width := Nat.pow_pos (by decide)
    have hdiv : n / 256 ^ width < 256 := by
      rw [Nat.div_lt_iff_lt_mul hpos, Nat.mul_comm, ← Nat.pow_succ]
      exact h
    rw [bigEndian, numberOf_cons, length_bigEndian, ← bigEndian_mod, ih (Nat.mod_lt _ hpos),
      UInt8.toNat_ofNat_of_lt' hdiv]
    exact Nat.mod_add_div' ..

theorem toNat_toUInt64 (v : Int64) : v.toUInt64.toNat = (v.toInt % 2 ^ 64).toNat := by
  have hlt := v.toUInt64.toNat_lt
  have hv : v.toInt = Int.bmod v.toUInt64.toNat (2 ^ 64) := BitVec.toInt_eq_toNat_bmod v.toBitVec
  have hmod : v.toInt % 2 ^ 64 = v.toUInt64.toNat % 2 ^ 64 := by
    rw [hv]
    exact Int.bmod_emod
  omega

/-! ## Reading -/

namespace Image

/-- Exactly the bytes `b` lie between two places. -/
structure Remainder.Passed (b : Bytes) (r r' : Remainder) : Prop where
  rest : r.rest = b ++ r'.rest
  offset : r'.offset = r.offset + b.length

theorem Remainder.passed_nil {r r' : Remainder} : Passed [] r r' ↔ r' = r := by
  constructor
  · intro h
    have hrest := h.rest
    have hoffset := h.offset
    cases r
    cases r'
    simp_all
  · intro h
    subst h
    exact ⟨rfl, rfl⟩

theorem Remainder.passed_append {b b' : Bytes} {r r' : Remainder} :
    Passed (b ++ b') r r' ↔ ∃ r₁, Passed b r r₁ ∧ Passed b' r₁ r' := by
  constructor
  · intro h
    refine ⟨⟨r.offset + b.length, b' ++ r'.rest⟩, ⟨?_, rfl⟩, ⟨rfl, ?_⟩⟩
    · rw [h.rest, List.append_assoc]
    · rw [h.offset, List.length_append, Nat.add_assoc]
  · intro h
    obtain ⟨r₁, h, h'⟩ := h
    refine ⟨?_, ?_⟩
    · rw [h.rest, h'.rest, List.append_assoc]
    · rw [h'.offset, h.offset, List.length_append, Nat.add_assoc]

namespace Decoder

open Remainder

variable {α β : Type} {r r' : Remainder}

/-- The values that a decoder gives are those with `P`, and for each it reads exactly the bytes it is written as. -/
def Reads (x : Decoder α) (P : α → Prop) (write : α → Bytes) : Prop :=
  ∀ a r r', x r = .ok (a, r') ↔ P a ∧ Passed (write a) r r'

theorem bind_ok_iff {x : Decoder α} {f : α → Decoder β} {b : β} :
    (x >>= f) r = .ok (b, r') ↔ ∃ a r₁, x r = .ok (a, r₁) ∧ f a r₁ = .ok (b, r') := by
  change (x r >>= fun p => f p.1 p.2) = _ ↔ _
  cases x r with
  | error e => simp [bind, Except.bind]
  | ok p =>
    constructor
    · intro h
      exact ⟨p.1, p.2, rfl, h⟩
    · intro h
      obtain ⟨a, r₁, h, h'⟩ := h
      cases h
      exact h'

theorem pure_ok_iff {a b : α} : (pure a : Decoder α) r = .ok (b, r') ↔ b = a ∧ r' = r := by
  change Except.ok (a, r) = .ok (b, r') ↔ _
  simp [eq_comm]

theorem throw_ok_iff {e : Fault} {a : α} : (throw e : Decoder α) r = .ok (a, r') ↔ False :=
  iff_false_intro fun h => by cases h

theorem bytes_ok_iff {n : Nat} {b : Bytes} : bytes n r = .ok (b, r') ↔ b.length = n ∧ Passed b r r' := by
  simp only [bytes]
  constructor
  · intro h
    by_cases hlen : (r.rest.take n).length = n
    · rw [if_pos hlen] at h
      cases h
      exact ⟨hlen, (List.take_append_drop n r.rest).symm, by rw [hlen]⟩
    · rw [if_neg hlen] at h
      cases h
  · intro h
    obtain ⟨rfl, hp⟩ := h
    have htake : r.rest.take b.length = b := by rw [hp.rest, List.take_left]
    have hdrop : r.rest.drop b.length = r'.rest := by rw [hp.rest, List.drop_left]
    rw [htake, hdrop, if_pos rfl, ← hp.offset]

theorem check_ok_iff {p : Prop} [Decidable p] {e : Fault} {f : Unit → Decoder α} {a : α} :
    (if p then throw e >>= f else f ()) r = .ok (a, r') ↔ ¬p ∧ f () r = .ok (a, r') := by
  by_cases h : p
  · simp [h, bind_ok_iff, throw_ok_iff]
  · simp [h]

theorem number_reads (width : Nat) (ofNat : Nat → α) (toNat : α → Nat) (hlt : ∀ a, toNat a < 256 ^ width)
    (hto : ∀ n, n < 256 ^ width → toNat (ofNat n) = n) (hof : ∀ a, ofNat (toNat a) = a) :
    Reads (do return ofNat (numberOf (← bytes width))) (fun _ => True) fun a => bigEndian width (toNat a) := by
  intro a r r'
  simp only [bind_ok_iff, bytes_ok_iff, pure_ok_iff, true_and]
  constructor
  · intro h
    obtain ⟨b, _, ⟨rfl, h⟩, rfl, rfl⟩ := h
    rwa [hto _ (numberOf_lt b), bigEndian_numberOf]
  · intro h
    refine ⟨_, r', ⟨length_bigEndian .., h⟩, ?_, rfl⟩
    rw [numberOf_bigEndian (hlt a), hof]

theorem byte_reads : byte.Reads (fun _ => True) (bigEndian 1 ·.toNat) :=
  number_reads 1 UInt8.ofNat _ UInt8.toNat_lt (fun _ => UInt8.toNat_ofNat_of_lt') fun _ => UInt8.ofNat_toNat

theorem word_reads : word.Reads (fun _ => True) (bigEndian 4 ·.toNat) :=
  number_reads 4 UInt32.ofNat _ UInt32.toNat_lt (fun _ => UInt32.toNat_ofNat_of_lt') fun _ => UInt32.ofNat_toNat

theorem doubleWord_reads : doubleWord.Reads (fun _ => True) (bigEndian 8 ·.toNat) :=
  number_reads 8 UInt64.ofNat _ UInt64.toNat_lt (fun _ => UInt64.toNat_ofNat_of_lt') fun _ => UInt64.ofNat_toNat

theorem instruction_reads :
    Reads (do return ⟨← word⟩) (fun _ : Instruction => True) (bigEndian 4 ·.word.toNat) := by
  intro i r r'
  simp only [bind_ok_iff, word_reads _ _ _, pure_ok_iff, true_and]
  constructor
  · intro h
    obtain ⟨w, r₁, h, rfl, rfl⟩ := h
    exact h
  · intro h
    exact ⟨i.word, r', h, rfl, rfl⟩

section
variable {P : α → Prop} {write : α → Bytes} {item : Nat → Decoder α}

theorem manyOnto_ok_iff (h : ∀ index, (item index).Reads P write) {n index : Nat} {acc l : List α} :
    manyOnto item acc index n r = .ok (l, r') ↔ ∃ l', l = acc.reverse ++ l' ∧ l'.length = n ∧ (∀ a ∈ l', P a) ∧
      Passed (l'.flatMap write) r r' := by
  induction n generalizing acc index r with
  | zero =>
    simp only [manyOnto, pure_ok_iff]
    constructor
    · intro h
      obtain ⟨rfl, rfl⟩ := h
      exact ⟨[], by simp, rfl, by simp, passed_nil.mpr rfl⟩
    · intro h
      obtain ⟨l', rfl, hl, -, hp⟩ := h
      cases List.eq_nil_of_length_eq_zero hl
      exact ⟨List.append_nil _, passed_nil.mp hp⟩
  | succ n ih =>
    simp only [manyOnto, bind_ok_iff, h _ _ _ _, ih]
    constructor
    · intro h
      obtain ⟨a, r₁, ⟨ha, h₁⟩, l', rfl, hl, hP, h₂⟩ := h
      refine ⟨a :: l', by simp, by simp [hl], ?_, passed_append.mpr ⟨r₁, h₁, h₂⟩⟩
      exact List.forall_mem_cons.mpr ⟨ha, hP⟩
    · intro h
      obtain ⟨l', rfl, hl, hP, hp⟩ := h
      cases l' with
      | nil => cases hl
      | cons a l' =>
        obtain ⟨ha, hP⟩ := List.forall_mem_cons.mp hP
        obtain ⟨r₁, h₁, h₂⟩ := passed_append.mp hp
        exact ⟨a, r₁, ⟨ha, h₁⟩, l', by simp, Nat.succ.inj hl, hP, h₂⟩

theorem counted_reads (h : ∀ index, (item index).Reads P write) :
    (counted item).Reads (fun l => l.length < 2 ^ 32 ∧ ∀ a ∈ l, P a)
      fun l => bigEndian 4 l.length ++ l.flatMap write := by
  intro l r r'
  simp only [counted, bind_ok_iff, word_reads _ _ _, manyOnto_ok_iff h, passed_append, true_and]
  constructor
  · intro h
    obtain ⟨w, r₁, h₁, l', rfl, hl, hP, h₂⟩ := h
    have hlt : l.length < 2 ^ 32 := hl ▸ w.toNat_lt
    exact ⟨⟨hlt, hP⟩, r₁, by rwa [← hl] at h₁, h₂⟩
  · intro h
    obtain ⟨⟨hlt, hP⟩, r₁, h₁, h₂⟩ := h
    have hw : (UInt32.ofNat l.length).toNat = l.length := UInt32.toNat_ofNat_of_lt' hlt
    exact ⟨.ofNat l.length, r₁, by rwa [hw], l, rfl, hw.symm, hP, h₂⟩

end

theorem function_reads : function.Reads (·.code.length < 2 ^ 32) (·.layout) := by
  intro f r r'
  simp only [function, bind_ok_iff, word_reads _ _ _, byte_reads _ _ _, pure_ok_iff, true_and,
    counted_reads (fun _ => instruction_reads) _ _ _, Function.layout, passed_append]
  constructor
  · intro h
    obtain ⟨n, r₁, h₁, a, r₂, h₂, g, r₃, h₃, code, r₄, ⟨⟨hl, -⟩, r₅, h₄, h₅⟩, rfl, rfl⟩ := h
    exact ⟨hl, r₅, ⟨r₃, ⟨r₂, ⟨r₁, h₁, h₂⟩, h₃⟩, h₄⟩, h₅⟩
  · intro h
    obtain ⟨hl, r₅, ⟨r₃, ⟨r₂, ⟨r₁, h₁, h₂⟩, h₃⟩, h₄⟩, h₅⟩ := h
    exact ⟨_, r₁, h₁, _, r₂, h₂, _, r₃, h₃, _, r', ⟨⟨hl, fun _ _ => trivial⟩, r₅, h₄, h₅⟩, rfl, rfl⟩

theorem const_reads (index : Nat) : (const index).Reads (·.Fits) (·.layout) := by
  intro k r r'
  simp only [const, bind_ok_iff, byte_reads _ _ _, true_and]
  constructor
  · intro h
    obtain ⟨tag, r₁, htag, h⟩ := h
    -- the tags are tried in turn
    by_cases hint : tag = tagInt
    · subst hint
      simp only [ite_true, bind_ok_iff, doubleWord_reads _ _ _, pure_ok_iff, true_and] at h
      obtain ⟨w, r₂, hw, rfl, rfl⟩ := h
      refine ⟨trivial, passed_append.mpr ⟨r₁, htag, ?_⟩⟩
      rwa [← toNat_toUInt64, UInt64.toUInt64_toInt64]
    rw [if_neg hint] at h
    by_cases hfloat : tag = tagFloat
    · subst hfloat
      simp only [ite_true, bind_ok_iff, doubleWord_reads _ _ _, pure_ok_iff, true_and] at h
      obtain ⟨w, r₂, hw, rfl, rfl⟩ := h
      exact ⟨trivial, passed_append.mpr ⟨r₁, htag, hw⟩⟩
    rw [if_neg hfloat] at h
    by_cases hstr : tag = tagStr
    · subst hstr
      simp only [ite_true, bind_ok_iff, word_reads _ _ _, bytes_ok_iff, pure_ok_iff, true_and] at h
      obtain ⟨n, r₂, hn, b, r₃, ⟨hb, h₃⟩, rfl, rfl⟩ := h
      -- the length comes from a word, so it fits into one
      have hlt : b.length < 2 ^ 32 := hb ▸ n.toNat_lt
      rw [← hb] at hn
      exact ⟨hlt, passed_append.mpr ⟨r₂, passed_append.mpr ⟨r₁, htag, hn⟩, h₃⟩⟩
    · rw [if_neg hstr, bind_ok_iff] at h
      obtain ⟨_, _, -, h⟩ := h
      exact (throw_ok_iff.mp h).elim
  · intro h
    obtain ⟨hk, hp⟩ := h
    cases k with
    | int v =>
      obtain ⟨r₁, htag, hv⟩ := passed_append.mp hp
      rw [← toNat_toUInt64] at hv
      refine ⟨tagInt, r₁, htag, ?_⟩
      rw [if_pos rfl, bind_ok_iff]
      exact ⟨_, r', (doubleWord_reads _ _ _).mpr ⟨trivial, hv⟩, pure_ok_iff.mpr ⟨by simp, rfl⟩⟩
    | float x =>
      obtain ⟨r₁, htag, hx⟩ := passed_append.mp hp
      refine ⟨tagFloat, r₁, htag, ?_⟩
      rw [if_neg (by decide), if_pos rfl, bind_ok_iff]
      exact ⟨_, r', (doubleWord_reads _ _ _).mpr ⟨trivial, hx⟩, pure_ok_iff.mpr ⟨rfl, rfl⟩⟩
    | str b =>
      obtain ⟨r₂, h₂, hb⟩ := passed_append.mp hp
      obtain ⟨r₁, htag, hn⟩ := passed_append.mp h₂
      have hw : (UInt32.ofNat b.length).toNat = b.length := UInt32.toNat_ofNat_of_lt' hk
      refine ⟨tagStr, r₁, htag, ?_⟩
      rw [if_neg (by decide), if_neg (by decide), if_pos rfl]
      simp only [bind_ok_iff, word_reads _ _ _, bytes_ok_iff, pure_ok_iff, true_and]
      exact ⟨.ofNat b.length, r₂, by rwa [hw], b, r', ⟨hw.symm, hb⟩, rfl, rfl⟩

theorem atEnd_ok_iff {u : Unit} : atEnd r = .ok (u, r') ↔ r.rest = [] ∧ r' = r := by
  unfold atEnd
  rw [bind_ok_iff]
  constructor
  · intro h
    obtain ⟨_, _, h, h'⟩ := h
    cases h
    by_cases hr : r.rest = []
    · rw [if_neg (by simp [hr])] at h'
      exact ⟨hr, (pure_ok_iff.mp h').2⟩
    · rw [if_pos (by simp [hr])] at h'
      exact (throw_ok_iff.mp h').elim
  · intro h
    obtain ⟨hr, rfl⟩ := h
    refine ⟨r', r', rfl, ?_⟩
    rw [if_neg (by simp [hr])]
    rfl

theorem image_ok_iff {i : Image} : image r = .ok (i, r') ↔
    i.version = 1 ∧ i.Fits ∧ Passed i.layout r r' ∧ r'.rest = [] := by
  simp only [image, bind_ok_iff, check_ok_iff, word_reads _ _ _, true_and, counted_reads const_reads _ _ _,
    counted_reads (fun _ => function_reads) _ _ _, atEnd_ok_iff, pure_ok_iff, Image.layout, passed_append, ne_eq,
    Decidable.not_not]
  constructor
  · intro h
    obtain ⟨_, r₁, h₁, rfl, v, r₂, h₂, rfl, ks, r₃, ⟨⟨hks, hk⟩, r₄, h₃, h₄⟩, h⟩ := h
    obtain ⟨fs, r₅, ⟨⟨hfs, hf⟩, r₆, h₅, h₆⟩, _, _, ⟨hr, rfl⟩, rfl, rfl⟩ := h
    exact ⟨rfl, ⟨hks, hk, hfs, hf⟩, ⟨r₆, ⟨r₃, ⟨r₄, ⟨r₂, ⟨r₁, h₁, h₂⟩, h₃⟩, h₄⟩, h₅⟩, h₆⟩, hr⟩
  · intro h
    obtain ⟨hv, hi, ⟨r₆, ⟨r₃, ⟨r₄, ⟨r₂, ⟨r₁, h₁, h₂⟩, h₃⟩, h₄⟩, h₅⟩, h₆⟩, hr⟩ := h
    exact ⟨magic, r₁, h₁, rfl, i.version, r₂, h₂, hv, i.consts, r₃, ⟨⟨hi.consts, hi.const⟩, r₄, h₃, h₄⟩,
      i.functions, r', ⟨⟨hi.functions, hi.code⟩, r₆, h₅, h₆⟩, (), r', ⟨hr, rfl⟩, rfl, rfl⟩

end Decoder

theorem decode_ok_iff {d : Bytes} {i : Image} : decode d = .ok i ↔ i.version = 1 ∧ i.Fits ∧ d = i.layout := by
  have hmap : decode d = .ok i ↔ ∃ r', Decoder.image ⟨0, d⟩ = .ok (i, r') := by
    change (Decoder.image ⟨0, d⟩).map (·.1) = .ok i ↔ _
    cases Decoder.image ⟨0, d⟩ with
    | error e => simp [Except.map]
    | ok p =>
      obtain ⟨j, r⟩ := p
      simp [Except.map]
  simp only [hmap, Decoder.image_ok_iff]
  constructor
  · intro h
    obtain ⟨r', hv, hi, hp, hr⟩ := h
    have hd := hp.rest
    rw [hr, List.append_nil] at hd
    exact ⟨hv, hi, hd⟩
  · intro h
    obtain ⟨hv, hi, rfl⟩ := h
    exact ⟨⟨i.layout.length, []⟩, hv, hi, ⟨(List.append_nil _).symm, (Nat.zero_add _).symm⟩, rfl⟩

end Image

/-! ## Writing -/

theorem bytes32_ofNat (n : Nat) : bytes32 (.ofNat n) = bigEndian 4 n := by
  rw [← bigEndian_mod]
  simp [bytes32, bigEndian]

theorem bytes32_eq (w : UInt32) : bytes32 w = bigEndian 4 w.toNat := by
  rw [← bytes32_ofNat, UInt32.ofNat_toNat]

theorem bytes64_eq (w : UInt64) : bytes64 w = bigEndian 8 w.toNat := by
  rw [bytes64, bytes32_ofNat, bytes32_ofNat]
  simp [bigEndian, Nat.div_div_eq_div_mul]

namespace Image

theorem constBytes_eq (k : Const) : constBytes k = k.layout := by
  cases k with
  | int v =>
    rw [constBytes, bytes64_eq, toNat_toUInt64]
    rfl
  | float x =>
    rw [constBytes, bytes64_eq]
    rfl
  | str s =>
    rw [constBytes, bytes32_ofNat]
    rfl

theorem functionBytes_eq (f : Function) : functionBytes f = f.layout := by
  simp only [functionBytes, bytes32_ofNat, Function.layout]
  simp [bytes32_eq, bigEndian]

theorem encode_eq (i : Image) : i.encode = i.layout := by
  simp only [encode, bytes32_ofNat, funext constBytes_eq, funext functionBytes_eq]
  rw [bytes32_eq, bytes32_eq]
  rfl

theorem storedOnto_ok {l : List PoolValue} {ks : List Const} (h : l.map (·.const?) = ks.map some) (acc : List Const)
    (index : Nat) : storedOnto acc index l = .ok (acc.reverse ++ ks) := by
  induction l generalizing acc index ks with
  | nil =>
    cases ks with
    | nil => simp [storedOnto]
    | cons k ks => cases h
  | cons v l ih =>
    cases ks with
    | nil => cases h
    | cons k ks =>
      rw [List.map_cons, List.map_cons, List.cons.injEq] at h
      simp only [storedOnto, h.1]
      rw [ih h.2, List.reverse_cons, List.append_assoc, List.singleton_append]

theorem ofChunk_ok {c : Chunk} {ks : List Const} (h : c.consts.toList.map (·.const?) = ks.map some) :
    ofChunk c = .ok ⟨1, ks, [⟨0, 0, 255, c.code.toList⟩]⟩ := by
  rw [ofChunk, storedOnto_ok h]
  rfl

theorem ofChunk_chunk {i : Image} {code : List Instruction} (hv : i.version = 1)
    (hf : i.functions = [⟨0, 0, 255, code⟩]) : ofChunk i.chunk = .ok i := by
  have hks : i.chunk.consts.toList.map (·.const?) = i.consts.map some := by
    simp [chunk, Function.comp_def, PoolValue.const?]
  have hcode : i.chunk.code.toList = code := by simp [chunk, hf]
  rw [ofChunk_ok hks, hcode, ← hv, ← hf]

/-- Reading accepts the layout of every image of this version and nothing else. So an image is read from one string
of bytes only, and one that a chunk could have is written as it was read. -/
theorem decode_accepts_layout (d : Bytes) (i : Image) :
    (decode d = .ok i ↔ i.version = 1 ∧ i.Fits ∧ d = i.layout) ∧
    (∀ d', decode d = .ok i → decode d' = .ok i → d' = d) ∧
    ∀ code, i.functions = [⟨0, 0, 255, code⟩] → decode d = .ok i → i.chunk.encode = .ok d := by
  refine ⟨decode_ok_iff, ?_, ?_⟩
  · intro d' h h'
    obtain ⟨-, -, rfl⟩ := decode_ok_iff.mp h
    exact (decode_ok_iff.mp h').2.2
  · intro code hf h
    obtain ⟨hv, -, rfl⟩ := decode_ok_iff.mp h
    rw [Chunk.encode, ofChunk_chunk hv hf, ← encode_eq]
    rfl

/-- Two functions and constants of each kind; the float is no number and has bits of its own. -/
def twoFunctions : Image where
  version := 1
  consts := [.int (-2), .float ⟨0x7FF0000000000123⟩, .str [], .str [1, 0, 3]]
  functions := [⟨7, 2, 9, [.abc Op.halt.code 0 0 0]⟩, ⟨0, 0, 255, []⟩]

theorem twoFunctions_decoded : twoFunctions.Fits ∧ decode twoFunctions.layout = .ok twoFunctions := by
  have hfits : twoFunctions.Fits := ⟨by decide, by decide, by decide, by decide⟩
  exact ⟨hfits, (decode_accepts_layout twoFunctions.layout twoFunctions).1.mpr ⟨rfl, hfits, rfl⟩⟩

end Image

end RegCode
