import RegCode.Proofs.Direct

/-!
# Well-formed chunks

What a loader may rely on in compiled code: it ends with its only halt, jumps stay inside it and lead somewhere
else, operands name registers that the chunk has, bytes without a meaning are zero, and the constants are loaded
in the order of the pool, each of them once. Three facts carry this through the text. Every instruction is sound
for the registers in use, every jump spans code of its own statement, and the loads of a fragment count its
constants from the first one on.
-/

namespace RegCode

namespace Op

/-- The operations that compiled code is made of. -/
def isGenerated : Op → Bool
  | loadK | load | add | sub | mul | div | jmp | jmpIfNot | print | halt | compare _ => true
  | jmpIf | call | ret => false

/-- The operands that name registers. -/
def registers (i : Instruction) : Op → List Register
  | halt | jmp => []
  | loadK | jmpIf | jmpIfNot | ret | print => [i.a]
  | load | call => [i.a, i.b]
  | add | sub | mul | div | compare _ => [i.a, i.b, i.c]

/-- The operand bytes without a meaning. -/
def idle (i : Instruction) : Op → List UInt8
  | halt => [i.a, i.b, i.c]
  | jmp => [i.a]
  | load => [i.c]
  | ret | print => [i.b, i.c]
  | loadK | jmpIf | jmpIfNot | call | add | sub | mul | div | compare _ => []

end Op

def Instruction.constIndex? (i : Instruction) : Option Nat :=
  if i.op? = some .loadK then some i.bx.toNat else none

/-- The instruction can stand in compiled code that has `n` registers. -/
structure Instruction.Sound (n : Int) (op : Op) (i : Instruction) : Prop where
  decodes : i.op? = some op
  generated : op.isGenerated = true
  registers : ∀ r ∈ op.registers i, (r.toNat : Int) < n
  idle : ∀ b ∈ op.idle i, b = 0

structure Chunk.WellFormed (c : Chunk) : Prop where
  nonempty : 0 < c.code.size
  halt : ∀ (n : Nat) (i : Instruction), c.code[n]? = some i → (i.op? = some .halt ↔ n + 1 = c.code.size)
  sound : ∀ i ∈ c.code, ∃ op, i.Sound c.registers op
  jump : ∀ (n : Nat) (i : Instruction) (d : Int), c.code[n]? = some i → i.displacement? = some d →
    d ≠ 0 ∧ 0 ≤ n + d ∧ n + d < c.code.size
  registers : c.registers ≤ 256
  pool : c.consts.size ≤ 65536
  constants : ∀ v ∈ c.consts, ∃ k, v = .const k
  loads : c.code.toList.filterMap (·.constIndex?) = List.range c.consts.size

/-! ## Sound instructions -/

def Piece.Sound (n : Nat) (q : Piece) : Prop := ∃ op, q.instruction.Sound n op ∧ op ≠ .halt

namespace Piece.Sound

variable {n : Nat}

attribute [local simp] Op.registers Op.idle

theorem load {t : Register} (ht : t.toNat < n) (k : Nat) : (Piece.load t k).Sound n := by
  refine ⟨.loadK, ⟨Instruction.op?_abx .., rfl, ?_, ?_⟩, by simp⟩ <;> simp [Piece.load, ht]

theorem jump (d : Int) : (Piece.jump d).Sound n := by
  refine ⟨.jmp, ⟨Instruction.op?_asbx .., rfl, ?_, ?_⟩, by simp⟩ <;> simp [Piece.jump]

theorem jumpUnless {r : Register} (hr : r.toNat < n) (d : Int) : (Piece.jumpUnless r d).Sound n := by
  refine ⟨.jmpIfNot, ⟨Instruction.op?_asbx .., rfl, ?_, ?_⟩, by simp⟩ <;>
    simp [Piece.jumpUnless, hr]

theorem print {r : Register} (hr : r.toNat < n) : (Piece.print r).Sound n := by
  refine ⟨.print, ⟨Instruction.op?_abc .., rfl, ?_, ?_⟩, by simp⟩ <;> simp [Piece.print, hr]

theorem copy {q : Piece} {t r : Register} (e : q.instruction = .abc Op.load.code t r 0) (ht : t.toNat < n)
    (hr : r.toNat < n) : q.Sound n := by
  refine ⟨.load, ⟨?_, rfl, ?_, ?_⟩, by simp⟩ <;> simp [e, ht, hr]

theorem operate {op : Op} {t x y : Register} (ho : op.combines = true) (ht : t.toNat < n) (hx : x.toNat < n)
    (hy : y.toNat < n) : (Piece.operate op t x y).Sound n := by
  refine ⟨op, ⟨Instruction.op?_abc .., ?_, ?_, ?_⟩, ?_⟩ <;>
    cases op <;> simp_all [Op.combines, Op.isGenerated, Piece.operate]

theorem straight {q : Piece} (h : q.Straight n) : q.Sound n := by
  cases h with
  | load ht => exact load ht _
  | copy ht hr => exact copy rfl ht hr
  | assign hc hr => exact copy rfl (Nat.lt_of_le_of_lt (toNat_register_le _) hc) hr
  | operate ho ht hx hy => exact operate ho ht hx hy

end Piece.Sound

theorem Fragment.Every.sound {n : Nat} {F : Fragment} (h : F.Every (Piece.Straight n)) : F.Every (Piece.Sound n) :=
  h.mono fun _ => .straight

mutual

/-- The registers in use are enough for the variables behind a statement and for the operands of its code. -/
theorem stmt_sound {n : Nat} : ∀ {S : Scope} {k : Nat} {s : Stmt} {X : Fragment}, StmtCode S k s X →
    S.cells ≤ n → X.peak ≤ n → (S.after s).cells ≤ n ∧ X.Every (Piece.Sound n)
  | _, _, _, _, .print hF, hS, hn => by
    obtain ⟨sF, hr⟩ := next_straight hF hS (Nat.max_le.mp hn).1
    exact ⟨hS, sF.sound.append (.single rfl (.print hr))⟩
  | _, _, _, _, .declare _, _, hn => ⟨hn, .empty rfl⟩
  | S, _, _, _, .init hF, _, hn => by
    have hF' := (Nat.max_le.mp hn).1
    have hS : S.cells < n := by
      obtain ⟨-, G, -, rfl⟩ := hF
      exact (Nat.max_le.mp hF').1
    exact ⟨hS, (init_straight hF hS hF').sound⟩
  | _, _, _, _, .expr hF, hS, hn => ⟨hS, (next_straight hF hS hn).1.sound⟩
  | _, _, _, _, .block hB, hS, hn => stmts_sound hB hS hn
  | _, _, _, _, .ifThen hF hY _, hS, hn => by
    simp only [Fragment.peak_append, Nat.max_le] at hn
    obtain ⟨⟨hF', -⟩, hY'⟩ := hn
    obtain ⟨sF, hr⟩ := next_straight hF hS hF'
    obtain ⟨hS', sY⟩ := stmt_sound hY hS hY'
    exact ⟨hS', (sF.sound.append (.single rfl (.jumpUnless hr _))).append sY⟩
  | _, _, _, _, .ifElse hF hY _ hN _, hS, hn => by
    simp only [Fragment.peak_append, Nat.max_le] at hn
    obtain ⟨⟨⟨⟨hF', -⟩, hY'⟩, -⟩, hN'⟩ := hn
    obtain ⟨sF, hr⟩ := next_straight hF hS hF'
    obtain ⟨hS', sY⟩ := stmt_sound hY hS hY'
    obtain ⟨hS'', sN⟩ := stmt_sound hN hS' hN'
    refine ⟨hS'', .append (.append (.append (sF.sound.append ?_) sY) ?_) sN⟩
    · exact .single rfl (.jumpUnless hr _)
    · exact .single rfl (.jump _)
  | _, _, _, _, .while hF hB _ _, hS, hn => by
    obtain ⟨⟨⟨hF', -⟩, hB'⟩, -⟩ : ((_ ∧ _) ∧ _) ∧ _ := by
      simpa only [Fragment.looped, Fragment.peak_append, Nat.max_le] using hn
    obtain ⟨sF, hr⟩ := next_straight hF hS hF'
    obtain ⟨hS', sB⟩ := stmt_sound hB hS hB'
    exact ⟨hS', ((sF.sound.append (.single rfl (.jumpUnless hr _))).append sB).append (.single rfl (.jump _))⟩
  | _, _, _, _, .ret, hS, _ => ⟨hS, .empty rfl⟩
  | _, _, _, _, .func, hS, _ => ⟨hS, .empty rfl⟩

theorem stmts_sound {n : Nat} : ∀ {S : Scope} {k : Nat} {l : List Stmt} {X : Fragment}, StmtsCode S k l X →
    S.cells ≤ n → X.peak ≤ n → (S.afterAll l).cells ≤ n ∧ X.Every (Piece.Sound n)
  | _, _, _, _, .nil, hS, _ => ⟨hS, .empty rfl⟩
  | _, _, _, _, .cons hF hG, hS, hn => by
    obtain ⟨hF', hG'⟩ := Nat.max_le.mp hn
    obtain ⟨hS', sF⟩ := stmt_sound hF hS hF'
    obtain ⟨hS'', sG⟩ := stmts_sound hG hS' hG'
    exact ⟨hS'', sF.append sG⟩

end

/-! ## Loads and limits -/

namespace Fragment

def loads (F : Fragment) : List Nat := F.code.filterMap (·.instruction.constIndex?)

@[simp] theorem loads_append (F G : Fragment) : (F ++ G).loads = F.loads ++ G.loads := List.filterMap_append

/-- Behind `k` constants the fragment loads its own, each once and in order, and it keeps within the limits. -/
structure Pooled (k : Nat) (F : Fragment) : Prop where
  peak : F.peak ≤ maxRegisters
  size : k ≤ maxConsts → k + F.consts.length ≤ maxConsts
  loads : F.loads = List.range' k F.consts.length

namespace Pooled

variable {k : Nat} {F G : Fragment}

theorem append (hF : F.Pooled k) (hG : G.Pooled (k + F.consts.length)) : (F ++ G).Pooled k where
  peak := Nat.max_le.mpr ⟨hF.peak, hG.peak⟩
  size hk := by
    rw [consts_append, List.length_append, ← Nat.add_assoc]
    exact hG.size (hF.size hk)
  loads := by
    rw [loads_append, consts_append, List.length_append, hF.loads, hG.loads, List.range'_append_1]

theorem declared (h : F.Pooled k) : F.declared.Pooled k := ⟨h.peak, h.size, h.loads⟩

theorem looped (h : F.Pooled k) : F.looped.Pooled k := ⟨h.peak, h.size, h.loads⟩

theorem take {d : Nat} (h : d < maxRegisters) (k : Nat) : (Fragment.take d).Pooled k := ⟨h, id, rfl⟩

theorem empty (k : Nat) : Pooled k {} := ⟨Nat.zero_le _, id, rfl⟩

theorem one {q : Piece} (h : q.instruction.constIndex? = none) (k : Nat) : (Fragment.one q).Pooled k :=
  ⟨Nat.zero_le _, id, by simp [Fragment.loads, h]⟩

theorem constant {t : Register} {v : Const} (h : k < maxConsts) : (Fragment.constant t k v).Pooled k := by
  refine ⟨Nat.zero_le _, fun _ => h, ?_⟩
  have hk : (UInt16.ofNat k).toNat = k := UInt16.toNat_ofNat_of_lt' h
  simp [Fragment.loads, Piece.load, Instruction.constIndex?, hk]

theorem copied {q : Piece} {t r : Register} (h : q.instruction = .abc Op.load.code t r 0) (k : Nat) :
    (Fragment.one q).Pooled k :=
  one (by simp [h, Instruction.constIndex?]) k

theorem moved (t r : Register) (k : Nat) : (Fragment.moved t r).Pooled k := by
  unfold Fragment.moved
  split
  · exact empty k
  · exact copied rfl k

theorem stored (c : Nat) (r : Register) (k : Nat) : (Fragment.stored c r).Pooled k := by
  unfold Fragment.stored
  split
  · exact empty k
  · exact copied rfl k

theorem kept (S : Scope) (t r : Register) (e : Expr) (k : Nat) : (S.kept t r e).Pooled k := by
  unfold Scope.kept
  split
  · exact copied rfl k
  · exact empty k

theorem operate {op : Op} (h : op.combines = true) (t x y : Register) (k : Nat) :
    (Fragment.one (.operate op t x y)).Pooled k := by
  have hop : op ≠ .loadK := by
    intro e
    subst e
    cases h
  exact one (by simp [Piece.operate, Instruction.constIndex?, hop]) k

theorem print (r : Register) (k : Nat) : (Fragment.one (.print r)).Pooled k :=
  one (by simp [Piece.print, Instruction.constIndex?]) k

theorem jump (d : Int) (k : Nat) : (Fragment.one (.jump d)).Pooled k :=
  one (by simp [Piece.jump, Instruction.constIndex?]) k

theorem jumpUnless (r : Register) (d : Int) (k : Nat) : (Fragment.one (.jumpUnless r d)).Pooled k :=
  one (by simp [Piece.jumpUnless, Instruction.constIndex?]) k

end Pooled

end Fragment

theorem expr_pooled {S : Scope} {d k : Nat} {e : Expr} {t r : Register} {F : Fragment}
    (h : ExprCode S d k e t F r) :
    F.Pooled k := by
  induction h with
  | literal hk | folded _ hk | negated _ hk => exact .constant hk
  | name => exact .empty _
  | group _ ih => exact ih
  | binary _ ho _ hd _ ihF ihG =>
    have ho' := Machine.combines_operation ho
    refine .append (.append (.append (.append ihF (.kept ..)) (.take hd _)) ?_) (.operate ho' ..)
    simpa using ihG
  | minus _ _ hd hk ih | bang _ hd hk ih =>
    refine .append (.append (.append ih (.take hd _)) ?_) (.operate rfl ..)
    simpa using .constant hk
  | assign _ _ ih => exact .append ih (.stored ..)

theorem next_pooled {S : Scope} {cells k : Nat} {e : Expr} {F : Fragment} {r : Register}
    (h : NextCode S cells k e F r) :
    F.Pooled k := by
  obtain ⟨hd, G, hG, rfl⟩ := h
  exact .append (.take hd _) (expr_pooled hG)

mutual

theorem stmt_pooled : ∀ {S : Scope} {k : Nat} {s : Stmt} {X : Fragment}, StmtCode S k s X → X.Pooled k
  | _, _, _, _, .print hF => .append (next_pooled hF) (.print ..)
  | _, _, _, _, .declare h => .declared (.take h _)
  | _, _, _, _, .init hF => .declared (.append (next_pooled hF) (.moved ..))
  | _, _, _, _, .expr hF => next_pooled hF
  | _, _, _, _, .block hB => stmts_pooled hB
  | _, _, _, _, .ifThen hF hY _ => by
    refine .append (.append (next_pooled hF) (.jumpUnless ..)) ?_
    simpa using stmt_pooled hY
  | _, _, _, _, .ifElse hF hY _ hN _ => by
    refine .append (.append (.append (.append (next_pooled hF) (.jumpUnless ..)) ?_) (.jump ..)) ?_
    · simpa using stmt_pooled hY
    · simpa [Nat.add_assoc] using stmt_pooled hN
  | _, _, _, _, .while hF hB _ _ => by
    refine .looped (.append (.append (.append (next_pooled hF) (.jumpUnless ..)) ?_) (.jump ..))
    simpa using stmt_pooled hB
  | _, _, _, _, .ret => .empty _
  | _, _, _, _, .func => .empty _

theorem stmts_pooled : ∀ {S : Scope} {k : Nat} {l : List Stmt} {X : Fragment}, StmtsCode S k l X → X.Pooled k
  | _, _, _, _, .nil => .empty _
  | _, _, _, _, .cons hF hG => (stmt_pooled hF).append (stmts_pooled hG)

end

/-! ## Compiled chunks -/

theorem Instruction.sound_halt (n : Int) : (abc Op.halt.code 0 0 0).Sound n .halt :=
  ⟨op?_abc .., rfl, by simp [Op.registers], by simp [Op.idle]⟩

namespace Compiled

variable {p : Program} {c : Chunk} {F : Fragment}

theorem size (h : Compiled p c F) : c.code.size = F.code.length + 1 := by
  rw [← Array.length_toList, h.code]
  simp

theorem body_sound (h : Compiled p c F) : F.Every (Piece.Sound F.peak) :=
  (stmts_sound h.body (Nat.zero_le _) (Nat.le_refl _)).2

theorem halt_iff (h : Compiled p c F) {n : Nat} {i : Instruction} (hi : c.code[n]? = some i) :
    i.op? = some .halt ↔ n + 1 = c.code.size := by
  rw [h.size]
  rcases h.code_cases hi with ⟨q, hq, rfl⟩ | ⟨rfl, rfl⟩
  · obtain ⟨op, hs, hop⟩ := h.body_sound q (List.mem_of_getElem? hq)
    have hn := (List.getElem?_eq_some_iff.mp hq).1
    rw [hs.decodes]
    constructor
    · intro e
      exact absurd (Option.some.inj e) hop
    · intro e
      omega
  · simp

theorem jump_within (h : Compiled p c F) {n : Nat} {i : Instruction} {d : Int} (hi : c.code[n]? = some i)
    (hd : i.displacement? = some d) : d ≠ 0 ∧ 0 ≤ n + d ∧ n + d < c.code.size := by
  rw [h.size]
  rcases h.code_cases hi with ⟨q, hq, rfl⟩ | ⟨-, rfl⟩
  · obtain ⟨target, ht, -, -, hle, hne⟩ := @stmts_leads _ _ 0 _ _ h.body n d ⟨q, hq, hd⟩
    refine ⟨?_, ?_, ?_⟩ <;> omega
  · rw [Instruction.displacement?_abc rfl] at hd
    cases hd

end Compiled

/-- Whatever compiles is well formed. -/
theorem compile_wellFormed {p : Program} {c : Chunk} (h : (compile p).result = .ok c) : c.WellFormed := by
  obtain ⟨F, hF⟩ := compile_compiled h
  have hpool := stmts_pooled hF.body
  have hconsts : c.consts.size = F.consts.length := by
    rw [← Array.length_toList, hF.consts, List.length_map]
  refine ⟨?_, fun n i => hF.halt_iff, ?_, fun n i d => hF.jump_within, ?_, ?_, ?_, ?_⟩
  · rw [hF.size]
    exact Nat.succ_pos _
  · intro i hi
    rw [hF.registers]
    obtain ⟨n, hn⟩ := Array.getElem?_of_mem hi
    rcases hF.code_cases hn with ⟨q, hq, rfl⟩ | ⟨-, rfl⟩
    · obtain ⟨op, hs, -⟩ := hF.body_sound q (List.mem_of_getElem? hq)
      exact ⟨op, hs⟩
    · exact ⟨.halt, Instruction.sound_halt _⟩
  · rw [hF.registers]
    exact Int.ofNat_le.mpr hpool.peak
  · rw [hconsts, ← Nat.zero_add F.consts.length]
    exact hpool.size (Nat.zero_le _)
  · intro v hv
    rw [← Array.mem_toList_iff, hF.consts] at hv
    obtain ⟨k, -, rfl⟩ := List.mem_map.mp hv
    exact ⟨k, rfl⟩
  · have hhalt : (Instruction.abc Op.halt.code 0 0 0).constIndex? = none := by simp [Instruction.constIndex?]
    rw [hF.code, hconsts, List.range_eq_range', ← hpool.loads, List.filterMap_append, List.filterMap_map,
      List.filterMap_cons_none hhalt, List.filterMap_nil, List.append_nil]
    rfl

theorem branching_wellFormed : (compile branching).result = .ok branchingChunk ∧ branchingChunk.WellFormed :=
  ⟨branching_compiled, compile_wellFormed branching_compiled⟩

end RegCode
