import RegCode.Proofs.Demand
import RegCode.Proofs.Layout

/-!
# The number of registers in an image

Code uses registers below the number that its text asks for. An image always declares 255, so a program that needs
all 256 registers, and uses the last of them, is stored with a number that is one too small.
-/

namespace RegCode

def Instruction.registerOperands (i : Instruction) : List Register := i.op?.elim [] (·.registers i)

def Chunk.registerOperands (c : Chunk) : List Register := c.code.toList.flatMap (·.registerOperands)

theorem lt_last_iff (r : Register) : r < 255 ↔ r ≠ 255 := by
  have h255 : (255 : Register).toNat = 255 := rfl
  have hr := r.toNat_lt
  rw [UInt8.lt_iff_toNat_lt, Ne, ← UInt8.toNat_inj]
  omega

theorem Instruction.Sound.operands_lt {n : Int} {op : Op} {i : Instruction} (h : i.Sound n op) :
    ∀ r ∈ i.registerOperands, (r.toNat : Int) < n := by
  intro r hr
  rw [registerOperands, h.decodes] at hr
  exact h.registers r hr

namespace Compiled

variable {p : Program} {c : Chunk} {F : Fragment}

theorem instruction_sound (h : Compiled p c F) {i : Instruction} (hi : i ∈ c.code) :
    ∃ op, i.Sound (Task.demand 0 p.tasks) op := by
  rw [← Array.mem_toList_iff, h.code, List.mem_append, List.mem_map, List.mem_singleton] at hi
  rcases hi with ⟨q, hq, rfl⟩ | rfl
  · obtain ⟨op, hs, -⟩ := h.body_sound q hq
    exact ⟨op, h.body.peak_eq ▸ hs⟩
  · exact ⟨.halt, Instruction.sound_halt _⟩

theorem operands_lt (h : Compiled p c F) : ∀ r ∈ c.registerOperands, r.toNat < Task.demand 0 p.tasks := by
  intro r hr
  obtain ⟨i, hi, hr⟩ := List.mem_flatMap.mp hr
  obtain ⟨op, hs⟩ := h.instruction_sound (Array.mem_toList_iff.mp hi)
  exact Int.ofNat_lt.mp (hs.operands_lt r hr)

theorem encode_eq (h : Compiled p c F) :
    c.encode = .ok (Image.layout ⟨1, F.consts, [⟨0, 0, 255, c.code.toList⟩]⟩) := by
  have hks : c.consts.toList.map (·.const?) = F.consts.map some := by
    rw [h.consts, List.map_map]
    rfl
  rw [Chunk.encode, Image.ofChunk_ok hks, ← Image.encode_eq]
  rfl

end Compiled

/-- The operands of compiled code are below the number of registers that the text asks for. They are below the one
that the image declares if and only if register 255 is not among them, so always if the text asks for less than all
registers. -/
theorem compile_operands_declared {p : Program} {c : Chunk} (h : (compile p).result = .ok c) :
    (∀ i ∈ c.code, ∃ op, i.op? = some op) ∧ (∀ r ∈ c.registerOperands, r.toNat < Task.demand 0 p.tasks) ∧
    ∃ ks n, c.encode = .ok (Image.layout ⟨1, ks, [⟨0, 0, n, c.code.toList⟩]⟩) ∧
      ((∀ r ∈ c.registerOperands, r < n) ↔ 255 ∉ c.registerOperands) ∧
      (Task.demand 0 p.tasks < maxRegisters → ∀ r ∈ c.registerOperands, r < n) := by
  obtain ⟨F, hF⟩ := compile_compiled h
  have hiff : (∀ r ∈ c.registerOperands, r < 255) ↔ 255 ∉ c.registerOperands := by
    constructor
    · intro hr hmem
      exact (lt_last_iff 255).mp (hr 255 hmem) rfl
    · intro hmem r hr
      exact (lt_last_iff r).mpr fun e => hmem (e ▸ hr)
  refine ⟨?_, hF.operands_lt, F.consts, 255, hF.encode_eq, hiff, ?_⟩
  · intro i hi
    obtain ⟨op, hs⟩ := hF.instruction_sound hi
    exact ⟨op, hs.decodes⟩
  · intro hd
    refine hiff.mpr fun hmem => ?_
    have := hF.operands_lt 255 hmem
    simp only [maxRegisters] at hd
    have h255 : (255 : Register).toNat = 255 := rfl
    omega

/-- The program `var a = 0;` with as many such declarations as there are registers. -/
def filled : Program := ⟨List.replicate maxRegisters (.var {} [97] {} (some (.literal {} (.int 0)))), {}⟩

/-- The last variable has register 255, and the image declares no more registers than that. -/
theorem filled_beyond_declared : ∃ c ks n, (compile filled).result = .ok c ∧ 255 ∈ c.registerOperands ∧
    c.encode = .ok (Image.layout ⟨1, ks, [⟨0, 0, n, c.code.toList⟩]⟩) ∧ ¬ ∀ r ∈ c.registerOperands, r < n := by
  have h : (compile filled).result.toOption.any (·.registerOperands.contains 255) = true := by decide +kernel
  cases hr : (compile filled).result with
  | error f =>
    rw [hr] at h
    cases h
  | ok c =>
    rw [hr] at h
    have hmem : 255 ∈ c.registerOperands := by simpa [Except.toOption] using h
    obtain ⟨-, -, ks, n, he, hn, -⟩ := compile_operands_declared hr
    exact ⟨c, ks, n, rfl, hmem, he, fun hall => hn.mp hall hmem⟩

end RegCode
