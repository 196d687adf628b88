import RegCode.Proofs.Emission
import RegCode.Proofs.Meaning

/-!
# Compiled code does what the program means

The machine follows the meaning of the program, with every defined cell in its register. The invariant is
that only cells below the registers in use are defined: scratch registers lie above the variables declared so
far, so what a step overwrites belongs to a declaration that has not been reached, or to one in the body of a
loop whose condition is about to be evaluated again.
-/

namespace RegCode

/-! ## Code in its place -/

/-- A fragment stands in a chunk, its code from `pos` and its constants from `base` on. -/
structure Placed (c : Chunk) (pos base : Nat) (F : Fragment) : Prop where
  code : ∀ i p, F.code[i]? = some p → c.code[pos + i]? = some p.instruction
  consts : ∀ i k, F.consts[i]? = some k → c.consts[base + i]? = some (.const k)

section
variable {c : Chunk} {pos base : Nat} {F G : Fragment}

theorem Placed.left (h : Placed c pos base (F ++ G)) : Placed c pos base F where
  code i p hp := h.code i p (by
    rw [Fragment.code_append, List.getElem?_append_left (List.getElem?_eq_some_iff.mp hp).1, hp])
  consts i k hk := h.consts i k (by
    rw [Fragment.consts_append, List.getElem?_append_left (List.getElem?_eq_some_iff.mp hk).1, hk])

theorem Placed.right (h : Placed c pos base (F ++ G)) :
    Placed c (pos + F.code.length) (base + F.consts.length) G where
  code i p hp := by
    rw [Nat.add_assoc]
    apply h.code
    rw [Fragment.code_append, List.getElem?_append_right (by omega), Nat.add_sub_cancel_left, hp]
  consts i k hk := by
    rw [Nat.add_assoc]
    apply h.consts
    rw [Fragment.consts_append, List.getElem?_append_right (by omega), Nat.add_sub_cancel_left, hk]

theorem Placed.looped (h : Placed c pos base F.looped) : Placed c pos base F := ⟨h.code, h.consts⟩

theorem Placed.declared (h : Placed c pos base F.declared) : Placed c pos base F := ⟨h.code, h.consts⟩

theorem Placed.one {p : Piece} (h : Placed c pos base (.one p)) : c.code[pos]? = some p.instruction :=
  h.code 0 p rfl

end

namespace Machine

section
variable {M : Machine} {c : Chunk}

/-- Only cells below `n` are defined, and their values are in their registers. -/
def Agrees (n : Nat) (σ : M.Store) (regs : Register → M.Value) : Prop :=
  ∀ cell v, σ cell = some v → cell < n ∧ regs (UInt8.ofNat cell) = v

theorem Agrees.below {n : Nat} {σ : M.Store} {regs : Register → M.Value} (h : Agrees n σ regs) : σ.Below n :=
  fun cell v hv => (h cell v hv).1

theorem Agrees.restrict {m n : Nat} {σ : M.Store} {regs : Register → M.Value} (h : Agrees m σ regs)
    (hn : σ.Below n) : Agrees n σ regs :=
  fun cell v hv => ⟨hn cell v hv, (h cell v hv).2⟩

theorem Agrees.mono {m n : Nat} {σ : M.Store} {regs : Register → M.Value} (h : Agrees m σ regs) (hn : m ≤ n) :
    Agrees n σ regs :=
  h.restrict fun cell v hv => Nat.lt_of_lt_of_le (h cell v hv).1 hn

theorem Agrees.forget {m n : Nat} {σ : M.Store} {regs : Register → M.Value} (h : Agrees n σ regs) :
    Agrees m (σ.forget m n) regs := by
  intro cell v hv
  obtain ⟨hout, hv⟩ := Store.forget_eq_some.mp hv
  obtain ⟨hn, hr⟩ := h cell v hv
  exact ⟨by omega, hr⟩

theorem Agrees.scratch {n : Nat} {σ : M.Store} {regs : Register → M.Value} (h : Agrees n σ regs)
    {r : Register} (hr : n ≤ r.toNat) (v : M.Value) :
    Agrees n σ (Function.update regs r v) := by
  intro cell w hw
  obtain ⟨hn, hv⟩ := h cell w hw
  have : UInt8.ofNat cell ≠ r := register_ne (by omega)
  rw [Function.update_of_ne this]
  exact ⟨hn, hv⟩

theorem Agrees.set {n cell : Nat} {σ : M.Store} {regs : Register → M.Value} (h : Agrees n σ regs)
    (hc : cell < n) (hn : n ≤ maxRegisters) (v : M.Value) :
    Agrees n (σ.set cell v) (Function.update regs (UInt8.ofNat cell) v) := by
  intro cell' w hw
  by_cases he : cell' = cell
  · subst he
    rw [Store.set_self] at hw
    cases hw
    exact ⟨hc, Function.update_self ..⟩
  · rw [Store.set_of_ne σ v he] at hw
    obtain ⟨hn', hr⟩ := h cell' w hw
    have : UInt8.ofNat cell' ≠ UInt8.ofNat cell := by
      intro e
      have e' := congrArg UInt8.toNat e
      rw [toNat_register (by omega), toNat_register (by omega)] at e'
      exact he e'
    rw [Function.update_of_ne this]
    exact ⟨hn', hr⟩

/-! ## Single instructions in their place -/

theorem step_at {s : M.State} {i : Instruction} {t : M.State} (h : c.code[s.pc]? = some i)
    (he : M.execute c.consts i s = some t) : M.Reaches c s t := by
  refine .single ?_
  change (c.code[s.pc]?.bind fun i => M.execute c.consts i s) = some t
  rw [h]
  exact he

variable {pos k : Nat} (regs : Register → M.Value) (out : List M.Value)

theorem constant_runs {t : Register} {v : Const} (h : Placed c pos k (.constant t k v)) (hk : k < maxConsts) :
    M.Reaches c ⟨pos, regs, out⟩ ⟨pos + 1, Function.update regs t (M.const v), out⟩ := by
  refine step_at (h.code 0 _ rfl) (execute_loadK M c.consts _ t (UInt16.ofNat k) ?_)
  rw [UInt16.toNat_ofNat_of_lt' hk]
  exact h.consts 0 v rfl

theorem copy_runs {p : Piece} {t r : Register} (h : Placed c pos k (.one p))
    (hp : p.instruction = .abc Op.load.code t r 0) :
    M.Reaches c ⟨pos, regs, out⟩ ⟨pos + 1, Function.update regs t (regs r), out⟩ :=
  step_at (h.one.trans (congrArg some hp)) (execute_load M c.consts _ t r 0)

theorem operate_runs {o : Op} {t a b : Register} {v : M.Value} (h : Placed c pos k (.one (.operate o t a b)))
    (ho : o.combines = true) (hv : M.operate o (regs a) (regs b) = some v) :
    M.Reaches c ⟨pos, regs, out⟩ ⟨pos + 1, Function.update regs t v, out⟩ :=
  step_at h.one (execute_operate M c.consts _ ho t a b hv)

theorem combines_operation {op : Kind} {o : Op} (h : op.operation? = some o) : o.combines = true := by
  cases op <;> cases h <;> rfl

/-- A copy is left out where it would copy a register to itself. -/
theorem transfer_runs {p : Piece} {t r : Register} (hp : p.instruction = .abc Op.load.code t r 0)
    (h : Placed c pos k (if r = t then {} else .one p)) :
    M.Reaches c ⟨pos, regs, out⟩ ⟨pos + (if r = t then {} else Fragment.one p).code.length,
      Function.update regs t (regs r), out⟩ := by
  by_cases hr : r = t
  · rw [if_pos hr, hr, Function.update_eq_self]
    exact .refl
  · rw [if_neg hr] at h ⊢
    exact copy_runs regs out h hp

theorem kept_runs {S : Scope} {t r : Register} {e : Expr} (h : Placed c pos k (S.kept t r e)) :
    ∃ regs', M.Reaches c ⟨pos, regs, out⟩ ⟨pos + (S.kept t r e).code.length, regs', out⟩ ∧
      regs' (S.keptIn t r e) = regs r ∧ ∀ q, q ≠ t → regs' q = regs q := by
  unfold Scope.kept Scope.keptIn at *
  by_cases hk : S.mustKeep t r e = true
  · rw [if_pos hk] at h
    rw [if_pos hk, if_pos hk]
    exact ⟨_, copy_runs regs out h rfl, Function.update_self .., fun q hq => Function.update_of_ne hq ..⟩
  · rw [if_neg hk, if_neg hk]
    exact ⟨regs, .refl, rfl, fun _ _ => rfl⟩

/-! ## Expressions -/

/-- What the code of an expression leaves behind: its value in `r`, which is the target or lies below it, the
cells in their registers, and all else below the target as it was. -/
structure Leaves (S : Scope) (e : Expr) (t r : Register) (v : M.Value) (σ : M.Store)
    (regs regs' : Register → M.Value) : Prop where
  value : regs' r = v
  place : r = t ∨ r.toNat < t.toNat
  agrees : Agrees t.toNat σ regs'
  frame : ∀ q, q.toNat < t.toNat → S.assigns q e = false → regs' q = regs q

theorem ne_of_toNat_lt {q r : Register} (h : q.toNat < r.toNat) : q ≠ r := by
  rintro rfl
  omega

theorem Leaves.scratch {S : Scope} {e : Expr} {t : Register} {v : M.Value} {σ : M.Store}
    {regs regs₁ : Register → M.Value} (ha : Agrees t.toNat σ regs₁)
    (hf : ∀ q, q.toNat < t.toNat → S.assigns q e = false → regs₁ q = regs q) :
    Leaves S e t t v σ regs (Function.update regs₁ t v) where
  value := Function.update_self ..
  place := .inl rfl
  agrees := ha.scratch (Nat.le_refl _) v
  frame q hq hn := by
    rw [Function.update_of_ne (ne_of_toNat_lt hq)]
    exact hf q hq hn

/-- Behind the operand of an operator in front: a zero is loaded and combined with it. -/
theorem zero_runs {S : Scope} {d : Nat} {e : Expr} {p : Place} {op : Kind} {o : Op} {t a x y : Register}
    {F : Fragment} {σ' : M.Store} {va v : M.Value} {regs₁ : Register → M.Value}
    (hp : Placed c pos k (F ++ .take d ++ .constant (UInt8.ofNat d) (k + F.consts.length) (.int 0) ++
      .one (.operate o t x y)))
    (hd : d < maxRegisters) (hk : k + F.consts.length < maxConsts) (ht : t.toNat < d)
    (ho : o.combines = true) (r₁ : M.Reaches c ⟨pos, regs, out⟩ ⟨pos + F.code.length, regs₁, out⟩)
    (l₁ : Leaves S e t a va σ' regs regs₁)
    (hv : ∀ regs' : Register → M.Value, regs' (UInt8.ofNat d) = M.const (.int 0) → regs' a = va →
      M.operate o (regs' x) (regs' y) = some v) :
    ∃ regs', M.Reaches c ⟨pos, regs, out⟩ ⟨pos + (F ++ .take d ++
        .constant (UInt8.ofNat d) (k + F.consts.length) (.int 0) ++ .one (.operate o t x y)).code.length,
        regs', out⟩ ∧
      Leaves S (.unary p op e) t t v σ' regs regs' := by
  have hp₂ := hp.left.right
  have hp₃ := hp.right
  simp only [Fragment.code_append, Fragment.consts_append, Fragment.code_take, Fragment.consts_take,
    Fragment.code_constant, List.append_nil, List.length_append, List.length_singleton,
    ← Nat.add_assoc] at hp₂ hp₃
  have hd' : (UInt8.ofNat d).toNat = d := toNat_register hd
  have r₂ := constant_runs regs₁ out hp₂ hk
  have hne : a ≠ UInt8.ofNat d := by
    rcases l₁.place with rfl | h
    · exact ne_of_toNat_lt (by omega)
    · exact ne_of_toNat_lt (by omega)
  have hv' := hv (Function.update regs₁ (UInt8.ofNat d) (M.const (.int 0))) (Function.update_self ..)
    ((Function.update_of_ne hne ..).trans l₁.value)
  have r₃ := operate_runs _ out hp₃ ho hv'
  have hle : t.toNat ≤ (UInt8.ofNat d).toNat := by omega
  refine ⟨_, ?_, .scratch (l₁.agrees.scratch hle (M.const (.int 0))) ?_⟩
  · simp only [Fragment.code_append, Fragment.code_take, Fragment.code_one, Fragment.code_constant,
      List.append_nil, List.length_append, List.length_singleton, ← Nat.add_assoc]
    exact (r₁.trans r₂).trans r₃
  · intro q hq hn
    have hqd : q ≠ UInt8.ofNat d := ne_of_toNat_lt (by omega)
    rw [Function.update_of_ne hqd]
    exact l₁.frame q hq hn

theorem expr_runs {S : Scope} {d k : Nat} {e : Expr} {t r : Register} {F : Fragment}
    (h : ExprCode S d k e t F r) : ∀ {pos : Nat} {σ σ' : M.Store} {v : M.Value} {regs : Register → M.Value},
    Placed c pos k F → t.toNat < d → S.Below t.toNat e → Agrees t.toNat σ regs →
    M.eval S e σ = some (v, σ') →
    ∃ regs', M.Reaches c ⟨pos, regs, out⟩ ⟨pos + F.code.length, regs', out⟩ ∧ Leaves S e t r v σ' regs regs' := by
  induction h with
  | literal hk =>
    intro pos σ σ' v regs hp ht hb ha he
    rw [eval, denoted_eq] at he
    cases he
    exact ⟨_, constant_runs regs out hp hk, .scratch ha fun _ _ _ => rfl⟩
  | @name d k p n cell t hc =>
    intro pos σ σ' v regs hp ht hb ha he
    obtain ⟨cell', hc', hv, rfl⟩ := eval_name he
    rw [hc] at hc'
    cases hc'
    obtain ⟨hlt, hr⟩ := ha cell v hv
    -- no code: the value is used where the variable is
    refine ⟨regs, .refl, hr, .inr ?_, ha, fun _ _ _ => rfl⟩
    have := t.toNat_lt
    rw [toNat_register (by unfold maxRegisters; omega)]
    exact hlt
  | group h ih =>
    intro pos σ σ' v regs hp ht hb ha he
    obtain ⟨regs', hr, hl⟩ := ih hp ht hb.inner ha he
    exact ⟨regs', hr, hl.value, hl.place, hl.agrees, hl.frame⟩
  | folded hf hk =>
    intro pos σ σ' v regs hp ht hb ha he
    simp only [eval, calculated?_eq, hf] at he
    cases he
    exact ⟨_, constant_runs regs out hp hk, .scratch ha fun _ _ _ => rfl⟩
  | @binary d k p op o left right t F a G b hf ho hF hd hG ihF ihG =>
    intro pos σ σ' v regs hp ht hb ha he
    obtain ⟨va, σ₁, vb, o', h₁, h₂, ho', hv⟩ := eval_binary hf he
    rw [ho] at ho'
    cases ho'
    have hp₁ := hp.left.left.left
    have hp₃ := hp.left.right
    have hp₄ := hp.right
    simp only [Fragment.code_append, Fragment.consts_append, Fragment.code_take, Fragment.consts_take,
      Scope.consts_kept, List.append_nil, List.length_append, ← Nat.add_assoc] at hp₃ hp₄
    obtain ⟨regs₁, r₁, l₁⟩ := ihF hp₁.left ht hb.left ha h₁
    obtain ⟨regs₂, r₂, hkv, hkf⟩ := kept_runs regs₁ out hp₁.right
    have ha₂ : Agrees t.toNat σ₁ regs₂ := fun cell w hw => by
      obtain ⟨hlt, hr⟩ := l₁.agrees cell w hw
      exact ⟨hlt, (hkf _ (register_ne hlt)).trans hr⟩
    have hd' : (UInt8.ofNat d).toNat = d := toNat_register hd
    obtain ⟨regs₃, r₃, l₃⟩ := ihG hp₃ (by omega) (hb.right.mono (by omega))
      (ha₂.restrict fun cell w hw => by have := ha₂.below cell w hw; omega) h₂
    -- the right side does not assign the register in which the left value waits
    obtain ⟨hle, hna⟩ := Scope.keptIn_safe l₁.place hb.right
    have hleft : regs₃ (S.keptIn t a right) = va := by
      rw [l₃.frame _ (by omega) hna, hkv, l₁.value]
    have hv' : M.operate o (regs₃ (S.keptIn t a right)) (regs₃ b) = some v := by
      rw [hleft, l₃.value]
      exact hv
    have r₄ := operate_runs regs₃ out hp₄ (combines_operation ho) hv'
    refine ⟨_, ?_, .scratch (l₃.agrees.restrict (eval_below right hb.right ha₂.below h₂)) ?_⟩
    · simp only [Fragment.code_append, Fragment.code_take, Fragment.code_one, List.append_nil,
        List.length_append, List.length_singleton, ← Nat.add_assoc]
      exact ((r₁.trans r₂).trans r₃).trans r₄
    · intro q hq hn
      simp only [Scope.assigns, Bool.or_eq_false_iff] at hn
      rw [l₃.frame q (by omega) hn.2, hkf q (ne_of_toNat_lt hq), l₁.frame q hq hn.1]
  | negated hn hk =>
    intro pos σ σ' v regs hp ht hb ha he
    simp only [eval, negated?_eq, hn] at he
    cases he
    exact ⟨_, constant_runs regs out hp hk, .scratch ha fun _ _ _ => rfl⟩
  | minus hn hF hd hk ih =>
    intro pos σ σ' v regs hp ht hb ha he
    obtain ⟨va, h₁, hv⟩ := eval_minus hn he
    obtain ⟨regs₁, r₁, l₁⟩ := ih hp.left.left.left ht hb.operand ha h₁
    refine zero_runs regs out hp hd hk ht rfl r₁ l₁ fun regs' h0 ha => ?_
    rw [h0, ha]
    exact hv
  | bang hF hd hk ih =>
    intro pos σ σ' v regs hp ht hb ha he
    obtain ⟨va, h₁, hv⟩ := eval_bang he
    obtain ⟨regs₁, r₁, l₁⟩ := ih hp.left.left.left ht hb.operand ha h₁
    refine zero_runs regs out hp hd hk ht rfl r₁ l₁ fun regs' h0 ha => ?_
    rw [h0, ha]
    exact hv
  | @assign d k p n cell e t F a hc hF ih =>
    intro pos σ σ' v regs hp ht hb ha he
    obtain ⟨cell', σ₁, hc', h₁, rfl⟩ := eval_assign he
    rw [hc] at hc'
    cases hc'
    have hlt := hb.target hc
    have ht' := t.toNat_lt
    obtain ⟨regs₁, r₁, l₁⟩ := ih hp.left ht hb.value ha h₁
    have r₂ := transfer_runs regs₁ out rfl hp.right
    rw [l₁.value] at r₂
    refine ⟨_, ?_, ?_, .inr ?_, l₁.agrees.set hlt (Nat.le_of_lt ht') v, ?_⟩
    · rw [Fragment.code_append, List.length_append, ← Nat.add_assoc]
      exact r₁.trans r₂
    · exact Function.update_self ..
    · rw [toNat_register (Nat.lt_trans hlt ht')]
      exact hlt
    · intro q hq hn
      simp only [Scope.assigns, Bool.or_eq_false_iff, beq_eq_false_iff_ne] at hn
      have hne : q ≠ UInt8.ofNat cell := by
        rintro rfl
        exact hn.1 (by rw [Scope.register?, hc, Option.map_some])
      rw [Function.update_of_ne hne]
      exact l₁.frame q hq hn.2

/-! ## Statements -/

theorem next_runs {S : Scope} {cells : Nat} {e : Expr} {F : Fragment} {r : Register} {σ σ' : M.Store} {v : M.Value}
    (h : NextCode S cells k e F r) (hp : Placed c pos k F) (hb : S.Below cells e) (ha : Agrees cells σ regs)
    (he : M.eval S e σ = some (v, σ')) :
    ∃ regs', M.Reaches c ⟨pos, regs, out⟩ ⟨pos + F.code.length, regs', out⟩ ∧ regs' r = v ∧
      Agrees cells σ' regs' := by
  obtain ⟨hlt, G, hG, rfl⟩ := h
  have ht : (UInt8.ofNat cells).toNat = cells := toNat_register hlt
  rw [← ht] at hb ha
  obtain ⟨regs', hr, hl⟩ := expr_runs out hG hp.right (by omega) hb ha he
  have hag := hl.agrees
  rw [ht] at hag
  exact ⟨regs', hr, hl.value, hag⟩

theorem print_runs {r : Register} (h : Placed c pos k (.one (.print r))) :
    M.Reaches c ⟨pos, regs, out⟩ ⟨pos + 1, regs, out ++ [regs r]⟩ :=
  step_at h.one (execute_print M c.consts _ r 0 0)

theorem toInt_ofInt {d : Int} (h : Reachable d) : (Int16.ofInt d).toInt = d :=
  Int16.toInt_ofInt_of_le h.1 (by have := h.2; omega)

theorem jump_runs {d : Int} {n : Nat} (h : Placed c pos k (.one (.jump d))) (hd : Reachable d)
    (hn : pos + d = n) : M.Reaches c ⟨pos, regs, out⟩ ⟨n, regs, out⟩ := by
  refine step_at h.one ((execute_jmp M c.consts _ 0 _).trans (jump_to M ?_))
  rw [toInt_ofInt hd]
  exact hn

theorem jumpUnless_runs {r : Register} {d : Int} {n : Nat} {b : Bool} (h : Placed c pos k (.one (.jumpUnless r d)))
    (hd : Reachable d) (hn : pos + d = n) (hb : M.test (regs r) = some b) :
    M.Reaches c ⟨pos, regs, out⟩ ⟨if b then pos + 1 else n, regs, out⟩ := by
  refine step_at h.one ((execute_jmpIfNot M c.consts _ r _ hb).trans ?_)
  cases b with
  | true => rfl
  | false =>
    refine jump_to M ?_
    rw [toInt_ofInt hd]
    exact hn

theorem condition_runs {S : Scope} {e : Expr} {F : Fragment} {r : Register} {d : Int} {n : Nat} {σ σ' : M.Store}
    {v : M.Value} {b : Bool} (hF : NextCode S S.cells k e F r) (hd : Reachable d)
    (hp : Placed c pos k (F ++ .one (.jumpUnless r d))) (hn : (pos + F.code.length : Nat) + d = n)
    (ha : Agrees S.cells σ regs) (he : M.eval S e σ = some (v, σ')) (ht : M.test v = some b) :
    ∃ regs', M.Reaches c ⟨pos, regs, out⟩ ⟨if b then pos + F.code.length + 1 else n, regs', out⟩ ∧
      Agrees S.cells σ' regs' := by
  obtain ⟨regs', r₁, hv, ha'⟩ := next_runs regs out hF hp.left (.cells S e) ha he
  rw [← hv] at ht
  exact ⟨regs', r₁.trans (jumpUnless_runs regs' out hp.right hd hn ht), ha'⟩

end

section
variable {M : Machine} {c : Chunk}

/-- The machine follows a statement whose code stands in the chunk: it comes to the end of the code, prints the
same values, and has the cells in their registers. -/
def Follows (c : Chunk) (S : Scope) (s : Stmt) (σ : M.Store) (out : List M.Value) (σ' : M.Store) : Prop :=
  ∀ ⦃k pos : Nat⦄ ⦃F : Fragment⦄ ⦃regs : Register → M.Value⦄ (printed : List M.Value), StmtCode S k s F →
    Placed c pos k F → s.initsApart = true → Agrees (S.entry s) σ regs →
    ∃ regs', M.Reaches c ⟨pos, regs, printed⟩ ⟨pos + F.code.length, regs', printed ++ out⟩ ∧
      Agrees (S.after s).cells σ' regs'

def FollowsAll (c : Chunk) (S : Scope) (l : List Stmt) (σ : M.Store) (out : List M.Value) (σ' : M.Store) : Prop :=
  ∀ ⦃k pos : Nat⦄ ⦃F : Fragment⦄ ⦃regs : Register → M.Value⦄ (printed : List M.Value), StmtsCode S k l F →
    Placed c pos k F → Stmt.initsApartAll l = true → Agrees S.cells σ regs →
    ∃ regs', M.Reaches c ⟨pos, regs, printed⟩ ⟨pos + F.code.length, regs', printed ++ out⟩ ∧
      Agrees (S.afterAll l).cells σ' regs'

mutual

-- The induction is on the execution: a loop that goes round again is then a case like the others.
theorem exec_follows : ∀ {S : Scope} {s : Stmt} {σ σ' : M.Store} {out : List M.Value}, M.Exec S s σ out σ' →
    Follows c S s σ out σ'
  | S, _, _, _, _, .print he => by
    intro k pos X regs printed hX hp hs ha
    cases hX with
    | print hF =>
      obtain ⟨regs₁, r₁, hv, ha₁⟩ := next_runs regs printed hF hp.left (.cells S _) ha he
      have r₂ := print_runs regs₁ printed hp.right
      rw [hv] at r₂
      rw [Fragment.code_append, List.length_append, ← Nat.add_assoc]
      exact ⟨regs₁, r₁.trans r₂, ha₁⟩
  | _, _, _, _, _, .declare => by
    intro k pos X regs printed hX hp hs ha
    cases hX
    rw [List.append_nil]
    exact ⟨regs, .refl, ha.mono (Nat.le_succ _)⟩
  | S, _, _, _, _, .init he => by
    intro k pos X regs printed hX hp hs ha
    cases hX with
    | init hF =>
      have hp' := hp.declared
      -- the name is bound already, but its initializer does not mention it
      have hm := Bool.not_eq_true' _ ▸ hs
      obtain ⟨regs₁, r₁, hv, ha₁⟩ := next_runs regs printed hF hp'.left (.declare hm) ha he
      have r₂ := transfer_runs regs₁ printed rfl hp'.right
      rw [hv] at r₂
      rw [List.append_nil, Fragment.code_declared, Fragment.code_append, List.length_append, ← Nat.add_assoc]
      have hlt : S.cells < maxRegisters := hF.1
      exact ⟨_, r₁.trans r₂, (ha₁.mono (Nat.le_succ _)).set (Nat.lt_succ_self _) hlt _⟩
  | S, _, _, _, _, .expr he => by
    intro k pos X regs printed hX hp hs ha
    cases hX with
    | expr hF =>
      obtain ⟨regs₁, r₁, -, ha₁⟩ := next_runs regs printed hF hp (.cells S _) ha he
      rw [List.append_nil]
      exact ⟨regs₁, r₁, ha₁⟩
  | _, _, _, _, _, .block h => by
    intro k pos X regs printed hX hp hs ha
    exact execAll_follows h printed hX.block_inv hp hs ha
  | S, .ifThen _ _ yes, _, _, _, .ifThenTrue he ht h => by
    intro k pos X regs printed hX hp hs ha
    obtain ⟨F, r, Y, hF, hY, hd, rfl⟩ := hX.ifThen_inv
    have hpY := hp.right
    simp only [Fragment.code_append, Fragment.consts_append, Fragment.consts_one, List.append_nil,
      List.length_append, Fragment.code_one, List.length_singleton, ← Nat.add_assoc] at hpY ⊢
    obtain ⟨regs₁, r₁, ha₁⟩ := condition_runs regs printed hF hd hp.left (Int.natCast_add ..).symm ha he ht
    obtain ⟨regs₂, r₂, ha₂⟩ := exec_follows h printed hY hpY hs (ha₁.mono (S.cells_le_entry yes))
    exact ⟨regs₂, r₁.trans r₂, ha₂⟩
  | S, .ifThen _ _ yes, _, _, _, .ifThenFalse he ht => by
    intro k pos X regs printed hX hp hs ha
    obtain ⟨F, r, Y, hF, hY, hd, rfl⟩ := hX.ifThen_inv
    obtain ⟨regs₁, r₁, ha₁⟩ := condition_runs (n := pos + F.code.length + 1 + Y.code.length) regs printed hF hd
      hp.left (by omega) ha he ht
    simp only [Fragment.code_append, List.length_append, Fragment.code_one, List.length_singleton, List.append_nil,
      ← Nat.add_assoc]
    exact ⟨regs₁, r₁, ha₁.mono (S.cells_le_after yes)⟩
  | S, .ifElse _ _ yes no, _, _, out, .ifElseTrue he ht h => by
    intro k pos X regs printed hX hp hs ha
    obtain ⟨F, r, Y, N, hF, hY, hd, hN, hd', rfl⟩ := hX.ifElse_inv
    obtain ⟨hs₁, -⟩ := Bool.and_eq_true_iff.mp hs
    have hpY := hp.left.left.right
    have hpJ := hp.left.right
    simp only [Fragment.code_append, Fragment.consts_append, Fragment.consts_one, List.append_nil,
      List.length_append, Fragment.code_one, List.length_singleton, ← Nat.add_assoc] at hpY hpJ ⊢
    obtain ⟨regs₁, r₁, ha₁⟩ :=
      condition_runs regs printed hF hd hp.left.left.left (Int.natCast_add ..).symm ha he ht
    obtain ⟨regs₂, r₂, ha₂⟩ := exec_follows h printed hY hpY hs₁ (ha₁.mono (S.cells_le_entry yes))
    have r₃ := jump_runs (n := pos + F.code.length + 1 + Y.code.length + 1 + N.code.length) regs₂ (printed ++ out)
      hpJ hd' (by omega)
    -- what the other branch would declare has a register and no value
    exact ⟨regs₂, (r₁.trans r₂).trans r₃, ha₂.mono ((S.after yes).cells_le_after no)⟩
  | S, .ifElse _ _ yes no, _, _, _, .ifElseFalse he ht h => by
    intro k pos X regs printed hX hp hs ha
    obtain ⟨F, r, Y, N, hF, hY, hd, hN, hd', rfl⟩ := hX.ifElse_inv
    obtain ⟨-, hs₂⟩ := Bool.and_eq_true_iff.mp hs
    have hpN := hp.right
    simp only [Fragment.code_append, Fragment.consts_append, Fragment.consts_one, List.append_nil,
      List.length_append, Fragment.code_one, List.length_singleton, ← Nat.add_assoc] at hpN ⊢
    obtain ⟨regs₁, r₁, ha₁⟩ := condition_runs (n := pos + F.code.length + 1 + Y.code.length + 1) regs printed hF hd
      hp.left.left.left (by omega) ha he ht
    have hle := Nat.le_trans (S.cells_le_after yes) ((S.after yes).cells_le_entry no)
    obtain ⟨regs₂, r₂, ha₂⟩ := exec_follows h printed hN hpN hs₂ (ha₁.mono hle)
    exact ⟨regs₂, r₁.trans r₂, ha₂⟩
  | S, .while _ _ body, _, _, _, @Exec.whileTrue _ _ _ _ _ _ _ _ o₁ _ o₂ _ he ht h h' => by
    intro k pos X regs printed hX hp hs ha
    obtain ⟨F, r, B, hF, hB, hd, hd', rfl⟩ := hX.while_inv
    have hpB := hp.looped.left.right
    have hpJ := hp.looped.right
    simp only [Fragment.code_append, Fragment.consts_append, Fragment.consts_one, List.append_nil,
      List.length_append, Fragment.code_one, List.length_singleton, ← Nat.add_assoc] at hpB hpJ
    obtain ⟨regs₁, r₁, ha₁⟩ := condition_runs regs printed hF hd hp.looped.left.left (Int.natCast_add ..).symm
      ha.forget he ht
    obtain ⟨regs₂, r₂, ha₂⟩ := exec_follows h printed hB hpB hs (ha₁.mono (S.cells_le_entry body))
    have r₃ := jump_runs (n := pos) regs₂ (printed ++ o₁) hpJ hd' (by omega)
    -- back at the condition, with the cells of the body defined
    obtain ⟨regs₃, r₄, ha₃⟩ := exec_follows h' (printed ++ o₁) hX hp hs ha₂
    rw [← List.append_assoc]
    exact ⟨regs₃, ((r₁.trans r₂).trans r₃).trans r₄, ha₃⟩
  | S, .while _ _ body, _, _, _, .whileFalse he ht => by
    intro k pos X regs printed hX hp hs ha
    obtain ⟨F, r, B, hF, hB, hd, hd', rfl⟩ := hX.while_inv
    obtain ⟨regs₁, r₁, ha₁⟩ := condition_runs (n := pos + F.code.length + 1 + B.code.length + 1) regs printed hF hd
      hp.looped.left.left (by omega) ha.forget he ht
    simp only [Fragment.code_looped, Fragment.code_append, List.length_append, Fragment.code_one,
      List.length_singleton, List.append_nil, ← Nat.add_assoc]
    exact ⟨regs₁, r₁, ha₁.mono (S.cells_le_after body)⟩
  | _, _, _, _, _, .ret => by
    intro k pos X regs printed hX hp hs ha
    cases hX
    rw [List.append_nil]
    exact ⟨regs, .refl, ha⟩
  | _, _, _, _, _, .func => by
    intro k pos X regs printed hX hp hs ha
    cases hX
    rw [List.append_nil]
    exact ⟨regs, .refl, ha⟩

theorem execAll_follows : ∀ {S : Scope} {l : List Stmt} {σ σ' : M.Store} {out : List M.Value},
    M.ExecAll S l σ out σ' → FollowsAll c S l σ out σ'
  | _, _, _, _, _, .nil => by
    intro k pos X regs printed hX hp hs ha
    cases hX
    rw [List.append_nil]
    exact ⟨regs, .refl, ha⟩
  | S, s :: _, _, _, _, @ExecAll.cons _ _ _ _ _ o₁ _ o₂ _ h₁ h₂ => by
    intro k pos X regs printed hX hp hs ha
    obtain ⟨F, G, hF, hG, rfl⟩ := hX.cons_inv
    obtain ⟨hs₁, hs₂⟩ := Bool.and_eq_true_iff.mp hs
    obtain ⟨regs₁, r₁, ha₁⟩ := exec_follows h₁ printed hF hp.left hs₁ (ha.mono (S.cells_le_entry s))
    obtain ⟨regs₂, r₂, ha₂⟩ := execAll_follows h₂ (printed ++ o₁) hG hp.right hs₂ ha₁
    refine ⟨regs₂, ?_, ha₂⟩
    rw [Fragment.code_append, List.length_append, ← Nat.add_assoc, ← List.append_assoc]
    exact r₁.trans r₂

end

end

end Machine

/-! ## Programs -/

mutual

theorem StmtCode.cells_le : ∀ {S : Scope} {k : Nat} {s : Stmt} {F : Fragment}, StmtCode S k s F →
    (S.after s).cells ≤ max S.cells maxRegisters
  | _, _, _, _, .declare hlt => Nat.le_trans hlt (Nat.le_max_right ..)
  | _, _, _, _, .init hF => Nat.le_trans hF.1 (Nat.le_max_right ..)
  | _, _, _, _, .block hB => hB.cells_le
  | _, _, _, _, .ifThen _ hY _ => hY.cells_le
  | S, _, .ifElse _ _ yes no, _, .ifElse _ hY _ hN _ => by
    have h₁ := hY.cells_le
    have h₂ := hN.cells_le
    change ((S.after yes).after no).cells ≤ _
    omega
  | _, _, _, _, .while _ hB _ _ => hB.cells_le
  | _, _, _, _, .print _ | _, _, _, _, .expr _ | _, _, _, _, .ret | _, _, _, _, .func => Nat.le_max_left ..

theorem StmtsCode.cells_le : ∀ {S : Scope} {k : Nat} {l : List Stmt} {F : Fragment}, StmtsCode S k l F →
    (S.afterAll l).cells ≤ max S.cells maxRegisters
  | _, _, _, _, .nil => Nat.le_max_left ..
  | S, _, s :: rest, _, .cons hF hG => by
    have h₁ := hF.cells_le
    have h₂ := hG.cells_le
    change ((S.after s).afterAll rest).cells ≤ _
    omega

end

theorem Compiled.placed {p : Program} {c : Chunk} {F : Fragment} (h : Compiled p c F) : Placed c 0 0 F where
  code i q hq := by
    obtain ⟨hi, -⟩ := List.getElem?_eq_some_iff.mp hq
    rw [Nat.zero_add, ← Array.getElem?_toList, h.code, List.getElem?_append_left (by simpa using hi),
      List.getElem?_map, hq, Option.map_some]
  consts i k hk := by
    rw [Nat.zero_add, ← Array.getElem?_toList, h.consts, List.getElem?_map, hk, Option.map_some]

theorem Compiled.halt {p : Program} {c : Chunk} {F : Fragment} (h : Compiled p c F) :
    c.code[F.code.length]? = some (.abc Op.halt.code 0 0 0) := by
  rw [← Array.getElem?_toList, h.code, List.getElem?_append_right (by simp)]
  simp

/-- Compilation preserves meaning: whatever the registers hold at first, the code of a program comes to its halt
with everything printed that the program prints, and with every defined variable in its register. -/
theorem compile_preserves_meaning {M : Machine} {p : Program} {c : Chunk} {out : List M.Value} {σ : M.Store}
    (hs : Stmt.initsApartAll p.body = true) (hc : (compile p).result = .ok c) (hm : M.Means p out σ)
    (regs : Register → M.Value) :
    ∃ s, M.Reaches c ⟨0, regs, []⟩ s ∧ M.Halted c s ∧ s.printed = out ∧
      ∀ cell v, σ cell = some v → cell < maxRegisters ∧ s.registers (UInt8.ofNat cell) = v := by
  obtain ⟨F, hF⟩ := compile_compiled hc
  have ha : Machine.Agrees Scope.empty.cells (fun _ => none : M.Store) regs := fun cell v hv => nomatch hv
  obtain ⟨regs', hr, ha'⟩ := Machine.execAll_follows hm [] hF.body hF.placed hs ha
  rw [Nat.zero_add, List.nil_append] at hr
  refine ⟨_, hr, ?_, rfl, fun cell v hv => ?_⟩
  · show (c.code[F.code.length]?.bind fun i => Machine.decode? i.opcode) = some .halt
    rw [hF.halt, Option.bind_some, Machine.decode?_opcode, Instruction.op?_abc]
  · have hle := hF.body.cells_le
    change _ ≤ max 0 maxRegisters at hle
    obtain ⟨hlt, hv'⟩ := ha' cell v hv
    exact ⟨by omega, hv'⟩

/-- Whole numbers, of which all but zero are true. A constant with a fraction is known by its word. -/
abbrev Machine.whole : Machine where
  Value := Int
  const
    | .int v => v.toInt
    | .float x => x.word
    | _ => 0
  operate
    | .add, a, b => some (a + b)
    | .sub, a, b => some (a - b)
    | .mul, a, b => some (a * b)
    | .compare .lt, a, b => some (if a < b then 1 else 0)
    | .compare .eq, a, b => some (if a = b then 1 else 0)
    | _, _, _ => none
  test v := some (v != 0)

/-- The program `var i = -1; while (i < 2) { var d = i * (i = i + 1); print d; }`, and behind the loop five times
`print`: with `6 + 2`, `6 - 2`, `6 * 2`, `6 / 2` and `6 - -(2)`. -/
def counting : Program :=
  let number (n : Int64) : Expr := .literal {} (.int n)
  let both (op : Kind) : Stmt := .print {} (.binary {} op (number 6) (number 2))
  ⟨[.var {} [105] {} (some (.unary {} .minus (number 1))),
    .while {} (.binary {} .less (.name {} [105]) (number 2)) (.block {} [
      .var {} [100] {} (some (.binary {} .star (.name {} [105]) (.group {} (.assign {} [105]
        (.binary {} .plus (.name {} [105]) (number 1)))))),
      .print {} (.name {} [100])]),
    both .plus, both .minus, both .star, both .slash,
    .print {} (.binary {} .minus (number 6) (.unary {} .minus (.group {} (number 2))))], {}⟩

def countingPrints : List Int :=
  [0, 0, 2, 0x4020000000000000, 0x4010000000000000, 0x4028000000000000, 0x4008000000000000, 8]

theorem counting_preserved : Stmt.initsApartAll counting.body = true ∧ ∃ c σ, (compile counting).result = .ok c ∧
    Machine.whole.Means counting countingPrints σ ∧
    ∃ s, Machine.whole.Reaches c ⟨0, fun _ => (7 : Int), []⟩ s ∧ Machine.whole.Halted c s ∧
      s.printed = countingPrints := by
  have hs : Stmt.initsApartAll counting.body = true := by decide
  have hok : (compile counting).result.isOk = true := by decide +kernel
  obtain ⟨c, hc⟩ : ∃ c, (compile counting).result = .ok c := by
    cases h : (compile counting).result with
    | error f =>
      rw [h] at hok
      cases hok
    | ok c => exact ⟨c, rfl⟩
  have hm : Machine.whole.Means counting countingPrints _ :=
    .cons (.init rfl) (.cons
      (.whileTrue rfl rfl (.block (.cons (.init rfl) (.cons (.print rfl) .nil)))
        (.whileTrue rfl rfl (.block (.cons (.init rfl) (.cons (.print rfl) .nil)))
          (.whileTrue rfl rfl (.block (.cons (.init rfl) (.cons (.print rfl) .nil))) (.whileFalse rfl rfl))))
      (.cons (.print rfl) (.cons (.print rfl) (.cons (.print rfl) (.cons (.print rfl) (.cons (.print rfl) .nil))))))
  obtain ⟨s, hr, hh, hp, -⟩ := compile_preserves_meaning hs hc hm fun _ => (7 : Int)
  exact ⟨hs, c, _, hc, hm, s, hr, hh, hp⟩

end RegCode
