import Mathlib.Algebra.Group.Nat.Defs
import RegCode.Chunk
import RegCode.Proofs.Fields

/-!
# The bits of an instruction

Packing, reading and completing are defined by arithmetic on the word. Here they are seen as shifts and masks:
every field has bits of its own, so that adding a field is the same as setting its bits, and cutting a field off is
the same as masking it out. Main statement: no field of a word disturbs another, whether the word is packed from
three operands, from a field of 16 bits or from a displacement, or gets its displacement later.
-/

namespace RegCode

/-! ## Arithmetic on bits -/

/-- Where the lower bits of a number are free, a field is added by setting its bits. -/
theorem or_eq_add_of_lt {n m k : Nat} (hn : n % 2 ^ k = 0) (hm : m < 2 ^ k) : n ||| m = n + m := by
  obtain ⟨q, rfl⟩ := Nat.dvd_of_mod_eq_zero hn
  exact (Nat.two_pow_add_eq_or_of_lt hm q).symm

theorem and_upperHalf {w : Nat} (hw : w < 2 ^ 32) : w &&& 0xFFFF0000 = w / 0x10000 * 0x10000 := by
  have hmask : 0xFFFF0000 = 2 ^ 16 * (2 ^ 16 - 1) := by decide
  have hhalf : 0x10000 = 2 ^ 16 := by decide
  apply Nat.eq_of_testBit_eq
  intro j
  rw [Nat.testBit_and, hmask, hhalf, Nat.testBit_two_pow_mul, Nat.testBit_two_pow_sub_one, Nat.testBit_mul_two_pow,
    Nat.testBit_div_two_pow]
  by_cases hlow : j < 16
  · simp [Nat.not_le.mpr hlow]
  · have hj : j - 16 + 16 = j := by omega
    rw [hj]
    by_cases htop : j < 32
    · have hmid : j - 16 < 16 := by omega
      simp [Nat.not_lt.mp hlow, hmid]
    -- The mask ends with the word, which has no bits up there either.
    · have hzero : w.testBit j = false :=
        Nat.testBit_lt_two_pow (Nat.lt_of_lt_of_le hw (Nat.pow_le_pow_right (by decide) (Nat.not_lt.mp htop)))
      simp [hzero]

theorem toNat_shiftLeft_byte (x : UInt8) {k : UInt32} (hk : k.toNat ≤ 24) :
    (x.toUInt32 <<< k).toNat = x.toNat * 2 ^ k.toNat := by
  have hfits : x.toNat * 2 ^ k.toNat < 2 ^ 32 :=
    calc x.toNat * 2 ^ k.toNat
      _ < 2 ^ 8 * 2 ^ k.toNat := Nat.mul_lt_mul_of_pos_right x.toNat_lt (Nat.two_pow_pos _)
      _ ≤ 2 ^ 8 * 2 ^ 24 := Nat.mul_le_mul_left _ (Nat.pow_le_pow_right (by decide) hk)
  rw [UInt32.toNat_shiftLeft, UInt8.toNat_toUInt32, Nat.mod_eq_of_lt (a := k.toNat) (by omega), Nat.shiftLeft_eq,
    Nat.mod_eq_of_lt hfits]

namespace Instruction

/-! ## The layout of a word -/

theorem toNat_opcode_a (op a : UInt8) :
    (op.toUInt32 <<< 24 ||| a.toUInt32 <<< 16).toNat = op.toNat * 0x1000000 + a.toNat * 0x10000 := by
  have ha := a.toNat_lt
  have hop : (op.toUInt32 <<< 24).toNat = op.toNat * 0x1000000 := toNat_shiftLeft_byte op (by decide)
  have hmid : (a.toUInt32 <<< 16).toNat = a.toNat * 0x10000 := toNat_shiftLeft_byte a (by decide)
  rw [UInt32.toNat_or, hop, hmid]
  exact or_eq_add_of_lt (k := 24) (by omega) (by omega)

theorem word_abx_bits (op a : UInt8) (bx : UInt16) :
    (abx op a bx).word = op.toUInt32 <<< 24 ||| a.toUInt32 <<< 16 ||| bx.toUInt32 := by
  apply UInt32.toNat_inj.mp
  rw [word_abx, UInt32.toNat_or, toNat_opcode_a, UInt16.toNat_toUInt32]
  exact (or_eq_add_of_lt (k := 16) (by omega) bx.toNat_lt).symm

theorem word_abc_bits (op a b c : UInt8) : (abc op a b c).word =
    op.toUInt32 <<< 24 ||| a.toUInt32 <<< 16 ||| b.toUInt32 <<< 8 ||| c.toUInt32 := by
  have hb := b.toNat_lt
  have hlow : (b.toUInt32 <<< 8).toNat = b.toNat * 0x100 := toNat_shiftLeft_byte b (by decide)
  have hthree : (op.toUInt32 <<< 24 ||| a.toUInt32 <<< 16 ||| b.toUInt32 <<< 8).toNat =
      op.toNat * 0x1000000 + a.toNat * 0x10000 + b.toNat * 0x100 := by
    rw [UInt32.toNat_or, toNat_opcode_a, hlow]
    exact or_eq_add_of_lt (k := 16) (by omega) (by omega)
  apply UInt32.toNat_inj.mp
  rw [word_abc, UInt32.toNat_or, hthree, UInt8.toNat_toUInt32]
  exact (or_eq_add_of_lt (k := 8) (by omega) c.toNat_lt).symm

example : (abc Op.add.code 2 0 1).word = 0x10020001 ∧ (asbx Op.jmp.code 0 (-3)).word = 0x2000FFFD := by decide

theorem bx_bits (i : Instruction) : i.bx = i.b.toUInt16 <<< 8 ||| i.c.toUInt16 := by
  have hb := i.b.toNat_lt
  have hhigh : (i.b.toUInt16 <<< 8).toNat = i.b.toNat * 0x100 := by
    rw [UInt16.toNat_shiftLeft, UInt8.toNat_toUInt16]
    change i.b.toNat <<< 8 % 2 ^ 16 = i.b.toNat * 0x100
    rw [Nat.shiftLeft_eq, Nat.mod_eq_of_lt (by omega)]
  have hjoin : (i.b.toUInt16 <<< 8 ||| i.c.toUInt16).toNat = i.b.toNat * 0x100 + i.c.toNat := by
    rw [UInt16.toNat_or, hhigh, UInt8.toNat_toUInt16]
    exact or_eq_add_of_lt (k := 8) (by omega) i.c.toNat_lt
  apply UInt16.toNat_inj.mp
  rw [hjoin]
  simp only [bx, b, c, UInt16.toNat_ofNat', UInt8.toNat_ofNat']
  omega

theorem word_withSbx_bits (i : Instruction) (d : Int16) :
    (i.withSbx d).word = i.word &&& 0xFFFF0000 ||| d.toUInt16.toUInt32 := by
  have hw := i.word.toNat_lt
  have hd := d.toUInt16.toNat_lt
  have hmask : (i.word &&& 0xFFFF0000).toNat = i.word.toNat / 0x10000 * 0x10000 := by
    rw [UInt32.toNat_and]
    exact and_upperHalf hw
  apply UInt32.toNat_inj.mp
  rw [UInt32.toNat_or, hmask, UInt16.toNat_toUInt32, or_eq_add_of_lt (k := 16) (by omega) hd]
  simp only [withSbx, UInt32.toNat_ofNat']
  omega

end Instruction

/-! ## Jumps completed again -/

namespace Chunk

theorem setSbx_setSbx (c : Chunk) (index : Nat) (d d' : Int16) :
    (c.setSbx index d).setSbx index d' = c.setSbx index d' := by
  have hcode : (c.code.modify index (·.withSbx d)).modify index (·.withSbx d') =
      c.code.modify index (·.withSbx d') := by
    apply Array.ext_getElem?
    intro k
    simp only [Array.getElem?_modify]
    by_cases hk : index = k
    · cases c.code[k]? <;> simp [hk, Instruction.withSbx_withSbx]
    · simp [hk]
  simp only [setSbx, hcode]

theorem patchFault?_setSbx (c : Chunk) (index : Nat) (d : Int16) :
    (c.setSbx index d).patchFault? index = c.patchFault? index := by
  unfold patchFault? setSbx
  rw [Array.getElem?_modify, if_pos rfl]
  cases c.code[index]? with
  | none => rfl
  | some i => simp only [Option.map_some, Instruction.isJump_withSbx, Instruction.opcode_withSbx]

/-- A jump that is completed twice is as if it had been completed the second time only; at a place that has no jump
the fault is the same. -/
theorem patch_patch (c : Chunk) (index : Nat) (d d' : Int16) :
    (c.patch index d).bind (·.patch index d') = c.patch index d' := by
  unfold patch
  cases hf : c.patchFault? index with
  | some f => rfl
  | none => simp only [Except.bind, patchFault?_setSbx, setSbx_setSbx, hf]

end Chunk

/-- The fields of a word are independent. What is packed, with three operands, with a field of 16 bits or with a
displacement, negative or not, has the bits of the layout and is read out again; every word is packed from its own
fields, and its field of 16 bits is that of `b` and `c`. Another displacement replaces the lower half of a word
alone and forgets the one before, also in a chunk. -/
theorem Instruction.fields_independent (op a b c : UInt8) (bx : UInt16) (d d' : Int16) (i : Instruction)
    (chunk : Chunk) (index : Nat) :
    ((abc op a b c).word = op.toUInt32 <<< 24 ||| a.toUInt32 <<< 16 ||| b.toUInt32 <<< 8 ||| c.toUInt32 ∧
      (abc op a b c).opcode = op ∧ (abc op a b c).a = a ∧ (abc op a b c).b = b ∧ (abc op a b c).c = c) ∧
    ((abx op a bx).word = op.toUInt32 <<< 24 ||| a.toUInt32 <<< 16 ||| bx.toUInt32 ∧
      (abx op a bx).opcode = op ∧ (abx op a bx).a = a ∧ (abx op a bx).bx = bx) ∧
    ((asbx op a d).word = op.toUInt32 <<< 24 ||| a.toUInt32 <<< 16 ||| d.toUInt16.toUInt32 ∧
      (asbx op a d).opcode = op ∧ (asbx op a d).a = a ∧ (asbx op a d).sbx = d) ∧
    abc i.opcode i.a i.b i.c = i ∧ i.bx = i.b.toUInt16 <<< 8 ||| i.c.toUInt16 ∧
    ((i.withSbx d).word = i.word &&& 0xFFFF0000 ||| d.toUInt16.toUInt32 ∧
      (i.withSbx d).opcode = i.opcode ∧ (i.withSbx d).a = i.a ∧ (i.withSbx d).sbx = d ∧
      (i.withSbx d).withSbx d' = i.withSbx d') ∧
    (chunk.patch index d).bind (·.patch index d') = chunk.patch index d' := by
  refine ⟨⟨word_abc_bits op a b c, opcode_abc .., a_abc .., b_abc .., c_abc ..⟩,
    ⟨word_abx_bits op a bx, opcode_abx .., a_abx .., bx_abx ..⟩,
    ⟨word_abx_bits op a d.toUInt16, opcode_asbx .., a_asbx .., sbx_asbx ..⟩, abc_fields i, bx_bits i, ?_,
    chunk.patch_patch index d d'⟩
  exact ⟨word_withSbx_bits i d, opcode_withSbx i d, a_withSbx i d, sbx_withSbx i d, withSbx_withSbx i d d'⟩

end RegCode
