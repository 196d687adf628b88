import Mathlib.Logic.Function.Basic
import Mathlib.Logic.Relation
import RegCode.Chunk
import RegCode.Proofs.Fields

/-!
# The machine

Runs of compiled code, as the opcodes describe them: a constant is loaded, a register copied, two registers
are combined, a taken jump goes to its own place plus its displacement. What values there are, how they are
combined and which of them are true is left open.
-/

namespace RegCode

/-- The operations on two registers whose result goes to a third one. -/
def Op.combines : Op → Bool
  | add | sub | mul | div | compare _ => true
  | _ => false

def Op.writes (op : Op) : Bool := op == .loadK || op == .load || op.combines

def Op.jumps : Op → Bool
  | jmp | jmpIf | jmpIfNot => true
  | _ => false

namespace Instruction

def target? (i : Instruction) : Option Register := i.op?.bind fun op => if op.writes then some i.a else none

/-- How many places on an instruction may go. -/
def displacement? (i : Instruction) : Option Int := i.op?.bind fun op => if op.jumps then some i.sbx.toInt else none

@[simp] theorem target?_abc (op : Op) (a b c : UInt8) :
    (abc op.code a b c).target? = if op.writes then some a else none := by
  simp only [target?, op?_abc, a_abc, Option.bind_some]

@[simp] theorem target?_abx (op : Op) (a : UInt8) (k : UInt16) :
    (abx op.code a k).target? = if op.writes then some a else none := by
  simp only [target?, op?_abx, a_abx, Option.bind_some]

@[simp] theorem target?_asbx (op : Op) (a : UInt8) (d : Int16) :
    (asbx op.code a d).target? = if op.writes then some a else none := by
  simp only [target?, op?_asbx, a_asbx, Option.bind_some]

theorem displacement?_abc {op : Op} (h : op.jumps = false) (a b c : UInt8) :
    (abc op.code a b c).displacement? = none := by
  simp [displacement?, h]

theorem displacement?_abx {op : Op} (h : op.jumps = false) (a : UInt8) (k : UInt16) :
    (abx op.code a k).displacement? = none := by
  simp [displacement?, h]

theorem displacement?_asbx {op : Op} (h : op.jumps = true) (a : UInt8) (d : Int16) :
    (asbx op.code a d).displacement? = some d.toInt := by
  simp [displacement?, h]

end Instruction

structure Machine where
  Value : Type
  const : Const → Value
  operate : Op → Value → Value → Option Value
  test : Value → Option Bool

namespace Machine

structure State (M : Machine) where
  pc : Nat
  registers : Register → M.Value
  printed : List M.Value

namespace State

variable {M : Machine}

def next (s : M.State) : M.State := { s with pc := s.pc + 1 }

def set (s : M.State) (r : Register) (v : M.Value) : M.State :=
  { s with registers := Function.update s.registers r v }

def print (s : M.State) (v : M.Value) : M.State := { s with printed := s.printed ++ [v] }

/-- Goes on so many places from here; there is nothing in front of the first one. -/
def jump (s : M.State) (d : Int16) : Option M.State :=
  if 0 ≤ s.pc + d.toInt then some { s with pc := (s.pc + d.toInt).toNat } else none

end State

def decode? (code : UInt8) : Option Op :=
  match code.toNat with
  | 0x00 => some .halt
  | 0x01 => some .loadK
  | 0x02 => some .load
  | 0x10 => some .add
  | 0x11 => some .sub
  | 0x12 => some .mul
  | 0x13 => some .div
  | 0x20 => some .jmp
  | 0x21 => some .jmpIf
  | 0x22 => some .jmpIfNot
  | 0x23 => some (.compare .lt)
  | 0x24 => some (.compare .le)
  | 0x25 => some (.compare .gt)
  | 0x26 => some (.compare .ge)
  | 0x27 => some (.compare .eq)
  | 0x28 => some (.compare .ne)
  | 0x30 => some .call
  | 0x31 => some .ret
  | 0x40 => some .print
  | _ => none

theorem decode?_opcode (i : Instruction) : decode? i.opcode = i.op? := by
  have hall : ∀ n < 256, decode? (UInt8.ofNat n) = Op.ofCode? (UInt8.ofNat n) := by decide +kernel
  have h := hall i.opcode.toNat i.opcode.toNat_lt
  rwa [UInt8.ofNat_toNat] at h

/-- What an operation does with the operands of its instruction. The machine stops where it says so, at
operations without a meaning, and where an operand is not fit for the operation. -/
def perform (M : Machine) (pool : Array PoolValue) (i : Instruction) (s : M.State) : Op → Option M.State
  | .loadK =>
    match pool[i.bx.toNat]? with
    | some (.const k) => some (s.set i.a (M.const k)).next
    | _ => none
  | .load => some (s.set i.a (s.registers i.b)).next
  | .print => some (s.print (s.registers i.a)).next
  | .jmp => s.jump i.sbx
  | .jmpIf => (M.test (s.registers i.a)).bind fun b => if b then s.jump i.sbx else some s.next
  | .jmpIfNot => (M.test (s.registers i.a)).bind fun b => if b then some s.next else s.jump i.sbx
  | .halt | .call | .ret => none
  | op => (M.operate op (s.registers i.b) (s.registers i.c)).map fun v => (s.set i.a v).next

def execute (M : Machine) (pool : Array PoolValue) (i : Instruction) (s : M.State) : Option M.State :=
  (decode? i.opcode).bind (M.perform pool i s)

def step (M : Machine) (c : Chunk) (s : M.State) : Option M.State :=
  c.code[s.pc]?.bind fun i => M.execute c.consts i s

def Step (M : Machine) (c : Chunk) (s t : M.State) : Prop := M.step c s = some t

abbrev Reaches (M : Machine) (c : Chunk) : M.State → M.State → Prop := Relation.ReflTransGen (M.Step c)

def runFor (M : Machine) (c : Chunk) : Nat → M.State → Option M.State
  | 0, s => some s
  | n + 1, s => (M.step c s).bind (M.runFor c n)

theorem reaches_runFor (M : Machine) {c : Chunk} : ∀ {n : Nat} {s t : M.State}, M.runFor c n s = some t →
    M.Reaches c s t
  | 0, s, t, h => by
    cases h
    exact .refl
  | n + 1, s, t, h => by
    obtain ⟨u, hu, h⟩ := Option.bind_eq_some_iff.mp h
    exact .head hu (reaches_runFor M h)

def Halted (M : Machine) (c : Chunk) (s : M.State) : Prop :=
  (c.code[s.pc]?.bind fun i => decode? i.opcode) = some .halt

/-! ## Single instructions -/

section
variable (M : Machine) (pool : Array PoolValue) (s : M.State)

theorem execute_of_op {i : Instruction} {op : Op} (h : i.op? = some op) :
    M.execute pool i s = M.perform pool i s op := by
  unfold execute
  rw [decode?_opcode, h]
  rfl

attribute [local simp] perform

theorem perform_loadK (i : Instruction) {v : Const} (h : pool[i.bx.toNat]? = some (.const v)) :
    M.perform pool i s .loadK = some (s.set i.a (M.const v)).next := by
  simp [h]

theorem execute_loadK (r : Register) (k : UInt16) {v : Const} (h : pool[k.toNat]? = some (.const v)) :
    M.execute pool (.abx Op.loadK.code r k) s = some (s.set r (M.const v)).next := by
  have hk : pool[(Instruction.abx Op.loadK.code r k).bx.toNat]? = some (.const v) := by
    rw [Instruction.bx_abx]
    exact h
  rw [execute_of_op M pool s (Instruction.op?_abx ..), perform_loadK M pool s _ hk, Instruction.a_abx]

theorem execute_load (r q : Register) (x : UInt8) :
    M.execute pool (.abc Op.load.code r q x) s = some (s.set r (s.registers q)).next := by
  rw [execute_of_op M pool s (Instruction.op?_abc ..)]
  simp

theorem execute_print (r : Register) (x y : UInt8) :
    M.execute pool (.abc Op.print.code r x y) s = some (s.print (s.registers r)).next := by
  rw [execute_of_op M pool s (Instruction.op?_abc ..)]
  simp

theorem execute_jmp (x : UInt8) (d : Int16) : M.execute pool (.asbx Op.jmp.code x d) s = s.jump d := by
  rw [execute_of_op M pool s (Instruction.op?_asbx ..)]
  simp

theorem execute_jmpIfNot (r : Register) (d : Int16) {b : Bool} (h : M.test (s.registers r) = some b) :
    M.execute pool (.asbx Op.jmpIfNot.code r d) s = if b then some s.next else s.jump d := by
  rw [execute_of_op M pool s (Instruction.op?_asbx ..)]
  simp [h]

theorem perform_combines (i : Instruction) {op : Op} (h : op.combines = true) : M.perform pool i s op =
    (M.operate op (s.registers i.b) (s.registers i.c)).map fun v => (s.set i.a v).next := by
  cases op <;> first | rfl | cases h

theorem execute_operate {op : Op} (h : op.combines = true) (r a b : Register) {v : M.Value}
    (hv : M.operate op (s.registers a) (s.registers b) = some v) :
    M.execute pool (.abc op.code r a b) s = some (s.set r v).next := by
  rw [execute_of_op M pool s (Instruction.op?_abc ..), perform_combines M pool s _ h,
    Instruction.a_abc, Instruction.b_abc, Instruction.c_abc, hv, Option.map_some]

theorem jump_cases {s t : M.State} {d : Int16} (h : s.jump d = some t) :
    (t.pc : Int) = s.pc + d.toInt ∧ t.registers = s.registers := by
  unfold State.jump at h
  by_cases hd : 0 ≤ s.pc + d.toInt
  · rw [if_pos hd] at h
    cases h
    exact ⟨Int.toNat_of_nonneg hd, rfl⟩
  · rw [if_neg hd] at h
    cases h

theorem set_next_cases {r : Register} {v : M.Value} {t : M.State} (h : some (s.set r v).next = some t) :
    t.pc = s.pc + 1 ∧ ∀ q, r ≠ q → t.registers q = s.registers q := by
  cases h
  exact ⟨rfl, fun q hq => Function.update_of_ne (Ne.symm hq) ..⟩

/-- What an operation can do: go on or jump, and write the register of an operation that writes. -/
theorem perform_cases {i : Instruction} {op : Op} {t : M.State} (h : M.perform pool i s op = some t) :
    (t.pc = s.pc + 1 ∨ op.jumps = true ∧ (t.pc : Int) = s.pc + i.sbx.toInt) ∧
      ∀ r, (op.writes = true → i.a ≠ r) → t.registers r = s.registers r := by
  cases op with
  | halt | call | ret => cases h
  | loadK =>
    simp only [perform] at h
    split at h
    · obtain ⟨hpc, hr⟩ := set_next_cases M s h
      exact ⟨.inl hpc, fun r hne => hr r (hne rfl)⟩
    · cases h
  | load =>
    obtain ⟨hpc, hr⟩ := set_next_cases M s h
    exact ⟨.inl hpc, fun r hne => hr r (hne rfl)⟩
  | print =>
    cases h
    exact ⟨.inl rfl, fun _ _ => rfl⟩
  | jmp =>
    obtain ⟨hpc, hr⟩ := jump_cases M h
    exact ⟨.inr ⟨rfl, hpc⟩, fun r _ => by rw [hr]⟩
  | jmpIf =>
    obtain ⟨b, -, hb⟩ := Option.bind_eq_some_iff.mp h
    cases b with
    | false =>
      cases hb
      exact ⟨.inl rfl, fun _ _ => rfl⟩
    | true =>
      obtain ⟨hpc, hr⟩ := jump_cases M hb
      exact ⟨.inr ⟨rfl, hpc⟩, fun r _ => by rw [hr]⟩
  | jmpIfNot =>
    obtain ⟨b, -, hb⟩ := Option.bind_eq_some_iff.mp h
    cases b with
    | false =>
      obtain ⟨hpc, hr⟩ := jump_cases M hb
      exact ⟨.inr ⟨rfl, hpc⟩, fun r _ => by rw [hr]⟩
    | true =>
      cases hb
      exact ⟨.inl rfl, fun _ _ => rfl⟩
  | add | sub | mul | div | compare =>
    obtain ⟨v, -, hv⟩ := Option.map_eq_some_iff.mp h
    obtain ⟨hpc, hr⟩ := set_next_cases M s (congrArg some hv)
    exact ⟨.inl hpc, fun r hne => hr r (hne rfl)⟩

/-- What a step can do, read off the instruction. -/
theorem step_cases {c : Chunk} {s t : M.State} (h : M.Step c s t) : ∃ i, c.code[s.pc]? = some i ∧
    (t.pc = s.pc + 1 ∨ ∃ d, i.displacement? = some d ∧ (t.pc : Int) = s.pc + d) ∧
    ∀ r, i.target? ≠ some r → t.registers r = s.registers r := by
  obtain ⟨i, hi, he⟩ := Option.bind_eq_some_iff.mp h
  obtain ⟨op, hop, hp⟩ := Option.bind_eq_some_iff.mp he
  rw [decode?_opcode] at hop
  obtain ⟨hpc, hr⟩ := perform_cases M c.consts s hp
  refine ⟨i, hi, ?_, fun r hne => hr r ?_⟩
  · rcases hpc with hpc | ⟨hj, hpc⟩
    · exact .inl hpc
    · exact .inr ⟨_, by simp [Instruction.displacement?, hop, hj], hpc⟩
  · rintro hw rfl
    exact hne (by simp [Instruction.target?, hop, hw])

theorem jump_to {s : M.State} {d : Int16} {n : Nat} (h : s.pc + d.toInt = n) :
    s.jump d = some { s with pc := n } := by
  unfold State.jump
  rw [h, if_pos (Int.natCast_nonneg n), Int.toNat_natCast]

end

end Machine

end RegCode
