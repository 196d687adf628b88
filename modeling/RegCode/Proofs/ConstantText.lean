import RegCode.Chunk.Listing
import RegCode.Proofs.Emission
import RegCode.Proofs.NumberText

/-!
# Constants in the tree and in the listing

A constant has one text, and a literal is listed, by the instruction that loads it, as it stands in the form of the
program.
-/

namespace RegCode

def Const.literal : Const → Literal
  | int v => .int v
  | float x => .float x
  | str s => .str s

theorem Const.const_literal (k : Const) : k.literal.const = k := by
  cases k <;> rfl

theorem Const.render_literal (k : Const) : k.literal.render = k.render := by
  cases k with
  | int v => rfl
  | float x => exact Literal.renderFloat_eq x
  | str s => rfl

theorem Chunk.mnemonic_load {c : Chunk} {n : Nat} {v : PoolValue} (hn : n < 0x10000) (hv : c.consts[n]? = some v)
    (index : Nat) (t : Register) :
    c.mnemonic index (.abx Op.loadK.code t (UInt16.ofNat n)) = (Op.loadK.name,
      operandList [registerName t, Text.decimal n] ++ txt " ; const[" ++ Text.decimal n ++ txt "]=" ++
      v.render) := by
  have hbx : (UInt16.ofNat n).toNat = n := UInt16.toNat_ofNat_of_lt' hn
  unfold mnemonic
  rw [Instruction.op?_abx]
  simp only [operands, constRef, Instruction.bx_abx, Instruction.a_abx, hbx, hv]

/-- The value that is loaded for a literal is written like the literal, and so is the operand of the instruction
that loads it, whatever code and constants come behind it. -/
theorem Const.literal_listed (k : Const) (p : Place) (t : Register) : k.literal.const = k ∧
    (Expr.literal p k.literal).render = (PoolValue.const k).render ∧
    ∀ g r g', Gen.expr (.literal p k.literal) t g = .ok r g' →
      ∃ i lead, g'.chunk.code = g.chunk.code.push i ∧
        ∀ c : Chunk, g'.chunk.consts.toList <+: c.consts.toList → ∀ index,
          c.mnemonic index i = (Op.loadK.name, lead ++ txt "]=" ++ (Expr.literal p k.literal).render) := by
  have hrender : (Expr.literal p k.literal).render = (PoolValue.const k).render := by
    simp only [Expr.render, Expr.renderThen, List.append_nil, PoolValue.render, render_literal]
  refine ⟨k.const_literal, hrender, fun g r g' h => ?_⟩
  obtain ⟨_, g₁, h₁, h⟩ := Gen.bind_ok h
  obtain ⟨-, rfl⟩ := Gen.pure_ok h
  rw [k.const_literal] at h₁
  obtain ⟨hn, h₁⟩ := Gen.loadConst_ok h₁
  cases h₁
  let n := g.chunk.consts.size
  refine ⟨_, Chunk.operandList [Chunk.registerName t, Text.decimal n] ++ txt " ; const[" ++ Text.decimal n,
    Chunk.code_write _ _ _, fun c hc index => ?_⟩
  have hv : c.consts[g.chunk.consts.size]? = some (.const k) := by
    obtain ⟨rest, hrest⟩ := hc
    rw [← Array.getElem?_toList, ← hrest]
    simp [Chunk.addConst]
  rw [hrender]
  exact Chunk.mnemonic_load (Nat.lt_of_lt_of_le hn (by decide)) hv index t

/-- The smallest number has an exponent, and so no point is added to it in either place. -/
theorem Const.literal_listed_subnormal :
    ∃ r g' i lead, Gen.expr (.literal {} (Const.float ⟨1⟩).literal) 0 {} = .ok r g' ∧ g'.chunk.code = #[i] ∧
      g'.chunk.mnemonic 0 i = (Op.loadK.name, lead ++ txt "]=" ++ txt "5e-324") := by
  obtain ⟨-, -, hlisted⟩ := Const.literal_listed (.float ⟨1⟩) {} 0
  have htext : (Expr.literal {} (Const.float ⟨1⟩).literal).render = txt "5e-324" := by decide +kernel
  obtain ⟨i, lead, hcode, hmnemonic⟩ := hlisted {} _ _ rfl
  refine ⟨_, _, i, lead, rfl, hcode, ?_⟩
  rw [← htext]
  exact hmnemonic _ (List.prefix_refl _) 0

end RegCode
