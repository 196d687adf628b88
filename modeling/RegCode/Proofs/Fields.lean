import RegCode.Instruction

/-!
# The fields of an instruction

What was packed into a word is read out of it again: the fields do not overlap, so each of them can be
read, and the displacement replaced, as if it stood alone.
-/

namespace RegCode

theorem Op.ofCode?_code (op : Op) : Op.ofCode? op.code = some op := by
  cases op with
  | compare k => cases k <;> decide
  | _ => decide

namespace Instruction

/-! ## Three operands -/

theorem word_abc (op a b c : UInt8) : (abc op a b c).word.toNat =
    op.toNat * 0x1000000 + a.toNat * 0x10000 + b.toNat * 0x100 + c.toNat := by
  have := op.toNat_lt
  have := a.toNat_lt
  have := b.toNat_lt
  have := c.toNat_lt
  simp only [abc, UInt32.toNat_ofNat']
  omega

@[simp] theorem opcode_abc (op a b c : UInt8) : (abc op a b c).opcode = op := by
  have := op.toNat_lt
  have := a.toNat_lt
  have := b.toNat_lt
  have := c.toNat_lt
  apply UInt8.toNat_inj.mp
  simp only [opcode, word_abc, UInt8.toNat_ofNat']
  omega

@[simp] theorem a_abc (op a b c : UInt8) : (abc op a b c).a = a := by
  have := a.toNat_lt
  have := b.toNat_lt
  have := c.toNat_lt
  apply UInt8.toNat_inj.mp
  simp only [Instruction.a, word_abc, UInt8.toNat_ofNat']
  omega

@[simp] theorem b_abc (op a b c : UInt8) : (abc op a b c).b = b := by
  have := b.toNat_lt
  have := c.toNat_lt
  apply UInt8.toNat_inj.mp
  simp only [Instruction.b, word_abc, UInt8.toNat_ofNat']
  omega

@[simp] theorem c_abc (op a b c : UInt8) : (abc op a b c).c = c := by
  have := c.toNat_lt
  apply UInt8.toNat_inj.mp
  simp only [Instruction.c, word_abc, UInt8.toNat_ofNat']
  omega

@[simp] theorem op?_abc (op : Op) (a b c : UInt8) : (abc op.code a b c).op? = some op := by
  unfold op?
  rw [opcode_abc, Op.ofCode?_code]

theorem abc_fields (i : Instruction) : abc i.opcode i.a i.b i.c = i := by
  obtain ⟨w⟩ := i
  have := w.toNat_lt
  have hword : (abc (mk w).opcode (mk w).a (mk w).b (mk w).c).word.toNat = w.toNat := by
    simp only [word_abc, opcode, a, b, c, UInt8.toNat_ofNat']
    omega
  exact congrArg mk (UInt32.toNat_inj.mp hword)

/-! ## An operand and a field of 16 bits -/

theorem word_abx (op a : UInt8) (bx : UInt16) :
    (abx op a bx).word.toNat = op.toNat * 0x1000000 + a.toNat * 0x10000 + bx.toNat := by
  have := op.toNat_lt
  have := a.toNat_lt
  have := bx.toNat_lt
  simp only [abx, UInt32.toNat_ofNat']
  omega

@[simp] theorem opcode_abx (op a : UInt8) (bx : UInt16) : (abx op a bx).opcode = op := by
  have := op.toNat_lt
  have := a.toNat_lt
  have := bx.toNat_lt
  apply UInt8.toNat_inj.mp
  simp only [opcode, word_abx, UInt8.toNat_ofNat']
  omega

@[simp] theorem a_abx (op a : UInt8) (bx : UInt16) : (abx op a bx).a = a := by
  have := a.toNat_lt
  have := bx.toNat_lt
  apply UInt8.toNat_inj.mp
  simp only [Instruction.a, word_abx, UInt8.toNat_ofNat']
  omega

@[simp] theorem bx_abx (op a : UInt8) (bx : UInt16) : (abx op a bx).bx = bx := by
  have := bx.toNat_lt
  apply UInt16.toNat_inj.mp
  simp only [Instruction.bx, word_abx, UInt16.toNat_ofNat']
  omega

@[simp] theorem op?_abx (op : Op) (a : UInt8) (bx : UInt16) : (abx op.code a bx).op? = some op := by
  unfold op?
  rw [opcode_abx, Op.ofCode?_code]

/-! ## Displacements -/

@[simp] theorem opcode_asbx (op a : UInt8) (d : Int16) : (asbx op a d).opcode = op := opcode_abx ..

@[simp] theorem a_asbx (op a : UInt8) (d : Int16) : (asbx op a d).a = a := a_abx ..

@[simp] theorem op?_asbx (op : Op) (a : UInt8) (d : Int16) : (asbx op.code a d).op? = some op := op?_abx ..

@[simp] theorem sbx_asbx (op a : UInt8) (d : Int16) : (asbx op a d).sbx = d := by
  simp only [sbx, asbx, bx_abx, Int16.toInt16_toUInt16]

@[simp] theorem withSbx_asbx (op a : UInt8) (d d' : Int16) :
    (asbx op a d).withSbx d' = asbx op a d' := by
  have := d.toUInt16.toNat_lt
  have : (op.toNat * 0x1000000 + a.toNat * 0x10000 + d.toUInt16.toNat) / 0x10000 * 0x10000 =
      op.toNat * 0x1000000 + a.toNat * 0x10000 := by omega
  unfold withSbx asbx
  rw [word_abx, this]
  rfl

theorem asbx_fields (i : Instruction) : asbx i.opcode i.a i.sbx = i := by
  obtain ⟨w⟩ := i
  have := w.toNat_lt
  have hword : (asbx (mk w).opcode (mk w).a (mk w).sbx).word.toNat = w.toNat := by
    simp only [asbx, sbx, word_abx, opcode, a, bx, UInt16.toUInt16_toInt16, UInt8.toNat_ofNat', UInt16.toNat_ofNat']
    omega
  exact congrArg mk (UInt32.toNat_inj.mp hword)

theorem withSbx_eq (i : Instruction) (d : Int16) : i.withSbx d = asbx i.opcode i.a d := by
  rw [← withSbx_asbx i.opcode i.a i.sbx, asbx_fields]

theorem opcode_withSbx (i : Instruction) (d : Int16) : (i.withSbx d).opcode = i.opcode := by
  rw [withSbx_eq, opcode_asbx]

theorem a_withSbx (i : Instruction) (d : Int16) : (i.withSbx d).a = i.a := by
  rw [withSbx_eq, a_asbx]

theorem sbx_withSbx (i : Instruction) (d : Int16) : (i.withSbx d).sbx = d := by
  rw [withSbx_eq, sbx_asbx]

theorem isJump_withSbx (i : Instruction) (d : Int16) : (i.withSbx d).isJump = i.isJump := by
  rw [isJump, op?, opcode_withSbx, ← op?, ← isJump]

theorem withSbx_withSbx (i : Instruction) (d d' : Int16) : (i.withSbx d).withSbx d' = i.withSbx d' := by
  rw [withSbx_eq i d, withSbx_asbx, withSbx_eq]

end Instruction

end RegCode
