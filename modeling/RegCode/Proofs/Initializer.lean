import RegCode.Proofs.Compilable
import RegCode.Proofs.Simulation

/-!
# Initializers that mention their own variable

The value of an initializer goes to the register of the variable it is for, and so do the values on the way to it.
An initializer that mentions the variable finds them there: what it has assigned may be gone when it is read, and
what it assigns may take the place of an operand that waits. `accumulate` is the value it comes to. It is the value
of the expression if every operand waits where it is left alone, and the variable is read only where it is still
there. Evaluated in a register of its own and then copied, every initializer has its value.
-/

namespace RegCode

/-! ## The register of the variable as a target -/

namespace Scope

def reads (S : Scope) (r : Register) : Expr → Bool
  | .name _ n => S.register? n == some r
  | .binary _ _ left right => reads S r left || !S.assigns r left && reads S r right
  | .assign _ _ e | .unary _ _ e | .group _ e => reads S r e
  | .literal .. | .hole => false

def place (S : Scope) (target : Register) : Expr → Register
  | .name _ n | .assign _ n _ => (S.register? n).getD target
  | .group _ e => place S target e
  | .literal .. | .binary .. | .unary .. | .hole => target

/-- Whether the variable that is held in `target` has its value there behind an expression, if it has one: either
the expression does not assign it, or nothing else was put there since. -/
def intact (S : Scope) (target : Register) : Expr → Bool
  | .assign _ n e => S.register? n == some target || intact S target e
  | .group _ e => intact S target e
  | .binary _ _ left right => !(S.assigns target left || S.assigns target right)
  | .unary _ _ e => !S.assigns target e
  | .literal .. | .name .. | .hole => true

/-- Whether the variable that is held in `target` can be mentioned in an expression that is evaluated there. Of
every operator whose result goes to `target`, the right operand does not assign the register in which the left value
waits, and does not read the variable unless it is still there. -/
def settled (S : Scope) (target : Register) : Expr → Bool
  | .binary _ _ left right =>
    settled S target left &&
      !S.assigns (S.keptIn target (S.place target left) right) right &&
      (!S.reads target right || S.intact target left && !S.mustKeep target (S.place target left) right)
  | .assign _ _ e | .unary _ _ e | .group _ e => settled S target e
  | .literal .. | .name .. | .hole => true

section
variable {S : Scope} {r target : Register}

theorem register?_eq {m : Bytes} {c : Nat} (h : S.names m = some c) : S.register? m = some (UInt8.ofNat c) := by
  rw [register?, h, Option.map_some]

theorem register_inj {c d : Nat} (hS : S.cells ≤ maxRegisters) (hc : c < S.cells) (hd : d < S.cells)
    (h : UInt8.ofNat c = UInt8.ofNat d) : c = d := by
  have := congrArg UInt8.toNat h
  rwa [toNat_register (by omega), toNat_register (by omega)] at this

theorem reads_eq_false : ∀ {e : Expr}, S.Below r.toNat e → S.reads r e = false
  | .name p m, h => by
    have hm : S.register? m ≠ some r := by
      intro hr
      obtain ⟨c, hc, he⟩ := Option.map_eq_some_iff.mp hr
      exact register_ne (h m c (by simp [Expr.mentions]) hc) he
    simp [reads, hm]
  | .binary p op left right, h => by simp [reads, reads_eq_false h.left, reads_eq_false h.right]
  | .unary p op e, h => by simp [reads, reads_eq_false h.operand]
  | .group p e, h => by simp [reads, reads_eq_false h.inner]
  | .assign p m e, h => by simp [reads, reads_eq_false h.value]
  | .literal .., _ | .hole, _ => rfl

theorem settled_of_below : ∀ {e : Expr}, S.Below target.toNat e → S.settled target e = true
  | .binary p op left right, h => by
    have hkept : S.assigns (S.keptIn target (S.place target left) right) right = false := by
      unfold keptIn
      by_cases hk : S.mustKeep target (S.place target left) right = true
      · rw [if_pos hk]
        exact h.right.assigns_eq_false
      · rw [if_neg hk]
        by_cases hp : S.place target left = target
        · rw [hp]
          exact h.right.assigns_eq_false
        · simpa [mustKeep, hp] using hk
    simp [settled, settled_of_below h.left, hkept, reads_eq_false h.right]
  | .unary p op e, h => by simp [settled, settled_of_below h.operand]
  | .group p e, h => by simp [settled, settled_of_below h.inner]
  | .assign p m e, h => by simp [settled, settled_of_below h.value]
  | .literal .., _ | .name .., _ | .hole, _ => rfl

end

end Scope

namespace Machine

section
variable {M : Machine}

def Store.keep (S : Scope) (c a : Nat) (e : Expr) (u : M.Value) (σ : M.Store) : M.Store :=
  if S.mustKeep (UInt8.ofNat c) (UInt8.ofNat a) e then σ.set c u else σ

end

def keptCell (S : Scope) (c a : Nat) (e : Expr) : Nat :=
  if S.mustKeep (UInt8.ofNat c) (UInt8.ofNat a) e then c else a

/-- Evaluates an expression with cell `c` for the values on the way. The left operand of an operator is read when
the right one has been evaluated. The answer is the cell in which the value is, and the cells behind the
expression. -/
def accumulate (M : Machine) (S : Scope) (c : Nat) : Expr → M.Store → Option (Nat × M.Store)
  | .literal _ v, σ => some (c, σ.set c (M.const (denoted v)))
  | .name _ n, σ => do
    let a ← S.names n
    return (a, σ)
  | .group _ e, σ => accumulate M S c e σ
  | .binary _ op left right, σ =>
    match calculated? op left right with
    | some x => some (c, σ.set c (M.const (.float x)))
    | none => do
      let (a, σ) ← accumulate M S c left σ
      let u ← σ a
      let (b, σ) ← M.eval S right (σ.keep S c a right u)
      let w ← σ (keptCell S c a right)
      let o ← operator? op
      let v ← M.operate o w b
      return (c, σ.set c v)
  | .unary _ op e, σ =>
    match op with
    | .minus =>
      match negated? e with
      | some k => some (c, σ.set c (M.const k))
      | none => do
        let (a, σ) ← accumulate M S c e σ
        let u ← σ a
        let v ← M.operate .sub (M.const (.int 0)) u
        return (c, σ.set c v)
    | .bang => do
      let (a, σ) ← accumulate M S c e σ
      let u ← σ a
      let v ← M.operate (.compare .eq) u (M.const (.int 0))
      return (c, σ.set c v)
    | _ => none
  | .assign _ n e, σ => do
    let d ← S.names n
    let (a, σ) ← accumulate M S c e σ
    let v ← σ a
    return (d, σ.set d v)
  | .hole, _ => none

section
variable {M : Machine} {S : Scope} {c a : Nat} {σ σ' : M.Store} {p : Place} {n : Bytes} {op : Kind}
  {e left right : Expr}

theorem accumulate_name (h : M.accumulate S c (.name p n) σ = some (a, σ')) : S.names n = some a ∧ σ' = σ := by
  obtain ⟨b, hb, h⟩ := Option.bind_eq_some_iff.mp h
  cases h
  exact ⟨hb, rfl⟩

theorem accumulate_binary (hf : Expr.fold? op left right = none)
    (h : M.accumulate S c (.binary p op left right) σ = some (a, σ')) :
    ∃ a₁ σ₁ u b σ₂ w o v, M.accumulate S c left σ = some (a₁, σ₁) ∧ σ₁ a₁ = some u ∧
      M.eval S right (σ₁.keep S c a₁ right u) = some (b, σ₂) ∧ σ₂ (keptCell S c a₁ right) = some w ∧
      op.operation? = some o ∧ M.operate o w b = some v ∧ a = c ∧ σ' = σ₂.set c v := by
  simp only [accumulate, calculated?_eq, hf] at h
  obtain ⟨⟨a₁, σ₁⟩, h₁, h⟩ := Option.bind_eq_some_iff.mp h
  obtain ⟨u, hu, h⟩ := Option.bind_eq_some_iff.mp h
  obtain ⟨⟨b, σ₂⟩, h₂, h⟩ := Option.bind_eq_some_iff.mp h
  obtain ⟨w, hw, h⟩ := Option.bind_eq_some_iff.mp h
  obtain ⟨o, ho, h⟩ := Option.bind_eq_some_iff.mp h
  rw [operator?_eq] at ho
  obtain ⟨v, hv, h⟩ := Option.bind_eq_some_iff.mp h
  cases h
  exact ⟨a₁, σ₁, u, b, σ₂, w, o, v, h₁, hu, h₂, hw, ho, hv, rfl, rfl⟩

theorem accumulate_minus (hn : e.negate? = none) (h : M.accumulate S c (.unary p .minus e) σ = some (a, σ')) :
    ∃ a₁ σ₁ u v, M.accumulate S c e σ = some (a₁, σ₁) ∧ σ₁ a₁ = some u ∧
      M.operate .sub (M.const (.int 0)) u = some v ∧ a = c ∧ σ' = σ₁.set c v := by
  simp only [accumulate, negated?_eq, hn] at h
  obtain ⟨⟨a₁, σ₁⟩, h₁, h⟩ := Option.bind_eq_some_iff.mp h
  obtain ⟨u, hu, h⟩ := Option.bind_eq_some_iff.mp h
  obtain ⟨v, hv, h⟩ := Option.bind_eq_some_iff.mp h
  cases h
  exact ⟨a₁, σ₁, u, v, h₁, hu, hv, rfl, rfl⟩

theorem accumulate_bang (h : M.accumulate S c (.unary p .bang e) σ = some (a, σ')) :
    ∃ a₁ σ₁ u v, M.accumulate S c e σ = some (a₁, σ₁) ∧ σ₁ a₁ = some u ∧
      M.operate (.compare .eq) u (M.const (.int 0)) = some v ∧ a = c ∧ σ' = σ₁.set c v := by
  obtain ⟨⟨a₁, σ₁⟩, h₁, h⟩ := Option.bind_eq_some_iff.mp h
  obtain ⟨u, hu, h⟩ := Option.bind_eq_some_iff.mp h
  obtain ⟨v, hv, h⟩ := Option.bind_eq_some_iff.mp h
  cases h
  exact ⟨a₁, σ₁, u, v, h₁, hu, hv, rfl, rfl⟩

theorem accumulate_assign (h : M.accumulate S c (.assign p n e) σ = some (a, σ')) :
    ∃ a₁ σ₁ v, S.names n = some a ∧ M.accumulate S c e σ = some (a₁, σ₁) ∧ σ₁ a₁ = some v ∧ σ' = σ₁.set a v := by
  obtain ⟨d, hd, h⟩ := Option.bind_eq_some_iff.mp h
  obtain ⟨⟨a₁, σ₁⟩, h₁, h⟩ := Option.bind_eq_some_iff.mp h
  obtain ⟨v, hv, h⟩ := Option.bind_eq_some_iff.mp h
  cases h
  exact ⟨a₁, σ₁, v, hd, h₁, hv, rfl⟩

end

/-! ## What the code comes to -/

section
variable {M : Machine} {ch : Chunk} {S : Scope} {c pos k : Nat} (regs : Register → M.Value) (out : List M.Value)

theorem keep_runs {a : Nat} {e : Expr} {σ : M.Store} {u : M.Value} (hlt : c < maxRegisters)
    (h : Placed ch pos k (S.kept (UInt8.ofNat c) (UInt8.ofNat a) e)) (ha : Agrees (c + 1) σ regs)
    (hu : σ a = some u) :
    ∃ regs', M.Reaches ch ⟨pos, regs, out⟩
        ⟨pos + (S.kept (UInt8.ofNat c) (UInt8.ofNat a) e).code.length, regs', out⟩ ∧
      Agrees (c + 1) (σ.keep S c a e u) regs' := by
  unfold Scope.kept Store.keep at *
  by_cases hk : S.mustKeep (UInt8.ofNat c) (UInt8.ofNat a) e = true
  · rw [if_pos hk] at h
    rw [if_pos hk, if_pos hk]
    refine ⟨_, copy_runs regs out h rfl, ?_⟩
    rw [(ha a u hu).2]
    exact ha.set (Nat.lt_succ_self c) hlt u
  · rw [if_neg hk, if_neg hk]
    exact ⟨regs, .refl, ha⟩

theorem keptIn_cell (S : Scope) (c a : Nat) (e : Expr) :
    S.keptIn (UInt8.ofNat c) (UInt8.ofNat a) e = UInt8.ofNat (keptCell S c a e) := by
  unfold Scope.keptIn keptCell
  split <;> rfl

theorem zero_accumulates {o : Op} {x y r : Register} {a : Nat} {F : Fragment} {σ : M.Store} {u v : M.Value}
    {regs₁ : Register → M.Value}
    (hp : Placed ch pos k (F ++ .take (c + 1) ++ .constant (UInt8.ofNat (c + 1)) (k + F.consts.length) (.int 0) ++
      .one (.operate o (UInt8.ofNat c) x y)))
    (hd : c + 1 < maxRegisters) (hk : k + F.consts.length < maxConsts) (ho : o.combines = true)
    (r₁ : M.Reaches ch ⟨pos, regs, out⟩ ⟨pos + F.code.length, regs₁, out⟩) (ha : Agrees (c + 1) σ regs₁)
    (hr : r = UInt8.ofNat a) (hu : σ a = some u)
    (hv : ∀ regs' : Register → M.Value, regs' (UInt8.ofNat (c + 1)) = M.const (.int 0) → regs' r = u →
      M.operate o (regs' x) (regs' y) = some v) :
    ∃ regs', M.Reaches ch ⟨pos, regs, out⟩ ⟨pos + (F ++ .take (c + 1) ++
        .constant (UInt8.ofNat (c + 1)) (k + F.consts.length) (.int 0) ++
        .one (.operate o (UInt8.ofNat c) x y)).code.length, regs', out⟩ ∧
      Agrees (c + 1) (σ.set c v) regs' := by
  have hp₂ := hp.left.right
  have hp₃ := hp.right
  simp only [Fragment.code_append, Fragment.consts_append, Fragment.code_take, Fragment.consts_take,
    Fragment.code_constant, List.append_nil, List.length_append, List.length_singleton,
    ← Nat.add_assoc] at hp₂ hp₃
  have r₂ := constant_runs regs₁ out hp₂ hk
  have ha₂ : Agrees (c + 1) σ (Function.update regs₁ (UInt8.ofNat (c + 1)) (M.const (.int 0))) :=
    ha.scratch (Nat.le_of_eq (toNat_register hd).symm) _
  have hv' := hv _ (Function.update_self ..) (hr ▸ (ha₂ a u hu).2)
  have r₃ := operate_runs _ out hp₃ ho hv'
  refine ⟨_, ?_, ha₂.set (Nat.lt_succ_self c) (Nat.le_of_lt hd) v⟩
  simp only [Fragment.code_append, Fragment.code_take, Fragment.code_one, Fragment.code_constant,
    List.append_nil, List.length_append, List.length_singleton, ← Nat.add_assoc]
  exact (r₁.trans r₂).trans r₃

/-- The code of an initializer, evaluated in the register of the variable it is for. Only the left operands are: the
right ones have registers behind the variables, where `expr_runs` is told of them. -/
theorem accumulate_runs {d : Nat} {e : Expr} {t r : Register} {F : Fragment} (hS : S.cells = c + 1)
    (hlt : c < maxRegisters) (h : ExprCode S d k e t F r) : d = c + 1 → t = UInt8.ofNat c →
    ∀ {pos a : Nat} {σ σ' : M.Store} {regs : Register → M.Value}, Placed ch pos k F → Agrees (c + 1) σ regs →
    M.accumulate S c e σ = some (a, σ') →
    ∃ regs', M.Reaches ch ⟨pos, regs, out⟩ ⟨pos + F.code.length, regs', out⟩ ∧ r = UInt8.ofNat a ∧
      Agrees (c + 1) σ' regs' := by
  have hself := Nat.lt_succ_self c
  induction h with
  | literal hk =>
    rintro rfl rfl pos a σ σ' regs hp ha he
    cases he
    exact ⟨_, constant_runs regs out hp hk, rfl, ha.set hself hlt _⟩
  | name hc =>
    rintro rfl rfl pos a σ σ' regs hp ha he
    obtain ⟨hc', rfl⟩ := accumulate_name he
    rw [hc] at hc'
    cases hc'
    exact ⟨regs, .refl, rfl, ha⟩
  | group h ih =>
    rintro rfl rfl pos a σ σ' regs hp ha he
    exact ih rfl rfl hp ha he
  | folded hf hk =>
    rintro rfl rfl pos a σ σ' regs hp ha he
    simp only [accumulate, calculated?_eq, hf] at he
    cases he
    exact ⟨_, constant_runs regs out hp hk, rfl, ha.set hself hlt _⟩
  | @binary d k p op o left right t F a₁ G b hf ho hF hd hG ihF ihG =>
    rintro rfl rfl pos a σ σ' regs hp ha he
    obtain ⟨a₁, σ₁, u, vb, σ₂, w, o', v, h₁, hu, h₂, hw, ho', hv, rfl, rfl⟩ := accumulate_binary hf he
    rw [ho] at ho'
    cases ho'
    have hp₁ := hp.left.left.left
    have hp₃ := hp.left.right
    have hp₄ := hp.right
    simp only [Fragment.code_append, Fragment.consts_append, Fragment.code_take, Fragment.consts_take,
      Scope.consts_kept, List.append_nil, List.length_append, ← Nat.add_assoc] at hp₃ hp₄
    obtain ⟨regs₁, r₁, rfl, ha₁⟩ := ihF rfl rfl hp₁.left ha h₁
    obtain ⟨regs₂, r₂, ha₂⟩ := keep_runs regs₁ out hlt hp₁.right ha₁ hu
    have hd' : (UInt8.ofNat (a + 1)).toNat = a + 1 := toNat_register hd
    -- behind all variables the right side is evaluated like any other expression
    obtain ⟨regs₃, r₃, l₃⟩ := expr_runs out hG hp₃ (by omega) (by rw [hd', ← hS]; exact .cells S right)
      (by rw [hd']; exact ha₂) h₂
    have ha₃ : Agrees (a + 1) σ₂ regs₃ := hd' ▸ l₃.agrees
    rw [keptIn_cell] at hp₄ ⊢
    have hv' : M.operate o (regs₃ (UInt8.ofNat (keptCell S a a₁ right))) (regs₃ b) = some v := by
      rw [(ha₃ _ w hw).2, l₃.value]
      exact hv
    have r₄ := operate_runs regs₃ out hp₄ (combines_operation ho) hv'
    refine ⟨_, ?_, rfl, ha₃.set hself hlt v⟩
    simp only [Fragment.code_append, Fragment.code_take, Fragment.code_one, List.append_nil,
      List.length_append, List.length_singleton, ← Nat.add_assoc]
    exact ((r₁.trans r₂).trans r₃).trans r₄
  | negated hn hk =>
    rintro rfl rfl pos a σ σ' regs hp ha he
    simp only [accumulate, negated?_eq, hn] at he
    cases he
    exact ⟨_, constant_runs regs out hp hk, rfl, ha.set hself hlt _⟩
  | minus hn hF hd hk ih =>
    rintro rfl rfl pos a σ σ' regs hp ha he
    obtain ⟨a₁, σ₁, u, v, h₁, hu, hv, rfl, rfl⟩ := accumulate_minus hn he
    obtain ⟨regs₁, r₁, hr, ha₁⟩ := ih rfl rfl hp.left.left.left ha h₁
    obtain ⟨regs', r', ha'⟩ := zero_accumulates regs out hp hd hk rfl r₁ ha₁ hr hu fun regs' h0 hu' => by
      rw [h0, hu']
      exact hv
    exact ⟨regs', r', rfl, ha'⟩
  | bang hF hd hk ih =>
    rintro rfl rfl pos a σ σ' regs hp ha he
    obtain ⟨a₁, σ₁, u, v, h₁, hu, hv, rfl, rfl⟩ := accumulate_bang he
    obtain ⟨regs₁, r₁, hr, ha₁⟩ := ih rfl rfl hp.left.left.left ha h₁
    obtain ⟨regs', r', ha'⟩ := zero_accumulates regs out hp hd hk rfl r₁ ha₁ hr hu fun regs' h0 hu' => by
      rw [h0, hu']
      exact hv
    exact ⟨regs', r', rfl, ha'⟩
  | @assign d k p n cell e t F a₁ hc hF ih =>
    rintro rfl rfl pos a σ σ' regs hp ha he
    obtain ⟨a₁, σ₁, v, hc', h₁, hv, rfl⟩ := accumulate_assign he
    rw [hc] at hc'
    cases hc'
    obtain ⟨regs₁, r₁, rfl, ha₁⟩ := ih rfl rfl hp.left ha h₁
    have r₂ := transfer_runs regs₁ out rfl hp.right
    rw [(ha₁ a₁ v hv).2] at r₂
    refine ⟨_, ?_, rfl, ha₁.set (hS ▸ S.bound n _ hc) hlt v⟩
    rw [Fragment.code_append, List.length_append, ← Nat.add_assoc]
    exact r₁.trans r₂

end

/-! ## Evaluation in place -/

section
variable {M : Machine} {S : Scope}

theorem eval_frame {d : Nat} : ∀ (e : Expr) {σ σ' : M.Store} {v : M.Value}, S.assigns (UInt8.ofNat d) e = false →
    M.eval S e σ = some (v, σ') → σ' d = σ d
  | .literal _ _, _, _, _, _, h => by
    cases h
    rfl
  | .name _ _, _, _, _, _, h => by
    obtain ⟨-, -, -, rfl⟩ := eval_name h
    rfl
  | .group _ e, _, _, _, hn, h => eval_frame e hn h
  | .binary _ op left right, _, _, _, hn, h => by
    cases hf : Expr.fold? op left right with
    | some x =>
      simp only [eval, calculated?_eq, hf] at h
      cases h
      rfl
    | none =>
      simp only [Scope.assigns, Bool.or_eq_false_iff] at hn
      obtain ⟨_, _, _, _, h₁, h₂, -, -⟩ := eval_binary hf h
      rw [eval_frame right hn.2 h₂, eval_frame left hn.1 h₁]
  | .unary _ op e, _, _, _, hn, h => by
    rcases eval_unary h with ⟨_, -, -, -, rfl⟩ | ⟨_, -, -, h₁, -⟩ | ⟨_, -, h₁, -⟩
    · rfl
    · exact eval_frame e hn h₁
    · exact eval_frame e hn h₁
  | .assign _ n e, _, _, _, hn, h => by
    obtain ⟨c, σ₁, hc, h₁, rfl⟩ := eval_assign h
    simp only [Scope.assigns, Bool.or_eq_false_iff, beq_eq_false_iff_ne, Scope.register?_eq hc] at hn
    have hne : d ≠ c := by
      rintro rfl
      exact hn.1 rfl
    rw [Store.set_of_ne σ₁ _ hne, eval_frame e hn.2 h₁]
  | .hole, _, _, _, _, h => by cases h

/-- What the first store has the second has as well; of the cell `c` this is said only if `x` is true. -/
def Store.Covers (c : Nat) (x : Bool) (σ τ : M.Store) : Prop :=
  ∀ d w, (d = c → x = true) → σ d = some w → τ d = some w

namespace Store.Covers

variable {c : Nat} {x y : Bool} {σ τ : M.Store}

theorem mono (h : Covers c x σ τ) (hy : y = true → x = true) : Covers c y σ τ :=
  fun d w hd => h d w fun e => hy (hd e)

theorem set (h : Covers c x σ τ) (d : Nat) (v : M.Value) (hy : y = true → x = true ∨ d = c) :
    Covers c y (σ.set d v) (τ.set d v) := by
  intro d' w hd hw
  by_cases he : d' = d
  · subst he
    rw [set_self] at hw ⊢
    exact hw
  · rw [set_of_ne σ v he] at hw
    rw [set_of_ne τ v he]
    refine h d' w (fun e => ?_) hw
    exact (hy (hd e)).resolve_right fun hc => he (e.trans hc.symm)

theorem of_none (h : Covers c x σ τ) (hy : y = true → σ c = none) : Covers c y σ τ := by
  intro d w hd hw
  refine h d w (fun e => ?_) hw
  rw [e, hy (hd e)] at hw
  cases hw

theorem overwrite (h : Covers c x σ τ) (v : M.Value) (hy : y = true → σ c = none) : Covers c y σ (τ.set c v) := by
  refine of_none (x := false) (fun d w hd hw => ?_) hy
  have hne : d ≠ c := fun e => Bool.false_ne_true (hd e)
  rw [set_of_ne τ v hne]
  exact h d w (fun e => absurd e hne) hw

end Store.Covers

theorem Store.Covers.keep {x : Bool} {σ τ : M.Store} {c a : Nat} {u : M.Value} (h : σ.Covers c x τ) (e : Expr) :
    σ.Covers c (x && !S.mustKeep (UInt8.ofNat c) (UInt8.ofNat a) e) (τ.keep S c a e u) := by
  unfold Store.keep
  split
  · next hk => exact h.overwrite u fun hy => by simp [hk] at hy
  · exact h.mono fun hy => (Bool.and_eq_true_iff.mp hy).1

theorem Store.keep_cell {τ : M.Store} {c a : Nat} {u : M.Value} (hu : τ a = some u) (e : Expr) :
    τ.keep S c a e u (keptCell S c a e) = some u := by
  unfold Store.keep keptCell
  split
  · exact Store.set_self ..
  · exact hu

section
variable {c : Nat} (hc : c < S.cells) (hS : S.cells ≤ maxRegisters)
include hc hS

theorem Store.Covers.assign {x : Bool} {σ τ : M.Store} {n : Bytes} {d : Nat} (h : σ.Covers c x τ)
    (hd : S.names n = some d) (v : M.Value) :
    (σ.set d v).Covers c (S.register? n == some (UInt8.ofNat c) || x) (τ.set d v) := by
  refine h.set d v fun hy => ?_
  simp only [Bool.or_eq_true, beq_iff_eq, Scope.register?_eq hd, Option.some.injEq] at hy
  exact hy.symm.imp_right (Scope.register_inj hS (S.bound n d hd) hc)

theorem eval_covers : ∀ (e : Expr) {x : Bool} {σ σ' τ : M.Store} {v : M.Value},
    (x = false → S.reads (UInt8.ofNat c) e = false) → σ.Covers c x τ → M.eval S e σ = some (v, σ') →
    ∃ τ', M.eval S e τ = some (v, τ') ∧ σ'.Covers c (S.assigns (UInt8.ofNat c) e || x) τ'
  | .literal _ _, _, _, _, τ, _, _, h, he => by
    cases he
    exact ⟨τ, rfl, h⟩
  | .name _ n, x, _, _, τ, _, hr, h, he => by
    obtain ⟨d, hd, hv, rfl⟩ := eval_name he
    -- a variable that has not been assigned yet is not read
    have hx : d = c → x = true := by
      rintro rfl
      by_contra hx
      have := hr (Bool.not_eq_true _ ▸ hx)
      simp [Scope.reads, Scope.register?_eq hd] at this
    exact ⟨τ, by simp [eval, hd, h d _ hx hv], h⟩
  | .group _ e, _, _, _, _, _, hr, h, he => eval_covers e hr h he
  | .binary _ op left right, x, _, _, τ, _, hr, h, he => by
    cases hf : Expr.fold? op left right with
    | some y =>
      obtain ⟨-, p, q, u, w, rfl, rfl⟩ := Expr.fold?_eq_some hf
      simp only [eval, calculated?_eq, hf] at he ⊢
      cases he
      exact ⟨τ, rfl, h⟩
    | none =>
      obtain ⟨va, σ₁, vb, o, h₁, h₂, ho, hv⟩ := eval_binary hf he
      simp only [Scope.reads, Bool.or_eq_false_iff, Bool.and_eq_false_iff, Bool.not_eq_false'] at hr
      obtain ⟨τ₁, ht₁, hτ₁⟩ := eval_covers left (fun hx => (hr hx).1) h h₁
      obtain ⟨τ₂, ht₂, hτ₂⟩ := eval_covers right (fun hx => by
        obtain ⟨hl, hx⟩ := Bool.or_eq_false_iff.mp hx
        exact (hr hx).2.resolve_left (by simp [hl])) hτ₁ h₂
      refine ⟨τ₂, by simp [eval, calculated?_eq, operator?_eq, hf, ht₁, ht₂, ho, hv], ?_⟩
      rwa [Scope.assigns, Bool.or_comm (S.assigns _ left), Bool.or_assoc]
  | .unary _ op e, _, _, _, τ, _, hr, h, he => by
    rcases eval_unary he with ⟨k, rfl, hn, rfl, rfl⟩ | ⟨a, rfl, hn, h₁, hv⟩ | ⟨a, rfl, h₁, hv⟩
    · obtain ⟨p, u, rfl⟩ := Expr.negate?_eq_some hn
      exact ⟨τ, by simp [eval, negated?_eq, hn], h⟩
    · obtain ⟨τ₁, ht₁, hτ₁⟩ := eval_covers e hr h h₁
      exact ⟨τ₁, by simp [eval, negated?_eq, hn, ht₁, hv], hτ₁⟩
    · obtain ⟨τ₁, ht₁, hτ₁⟩ := eval_covers e hr h h₁
      exact ⟨τ₁, by simp [eval, ht₁, hv], hτ₁⟩
  | .assign _ n e, x, _, _, _, v, hr, h, he => by
    obtain ⟨d, σ₁, hd, h₁, rfl⟩ := eval_assign he
    obtain ⟨τ₁, ht₁, hτ₁⟩ := eval_covers e hr h h₁
    refine ⟨τ₁.set d v, by simp [eval, hd, ht₁], ?_⟩
    rw [Scope.assigns, Bool.or_assoc]
    exact hτ₁.assign hc hS hd _
  | .hole, _, _, _, _, _, _, _, he => by cases he

/-- A settled initializer has its value although it is evaluated in the register of its variable. The variable is
undefined at first, so nothing is lost before it has been assigned. -/
theorem accumulate_of_eval : ∀ (e : Expr) {σ σ' τ : M.Store} {v : M.Value}, S.settled (UInt8.ofNat c) e = true →
    σ c = none → σ.Covers c false τ → M.eval S e σ = some (v, σ') →
    ∃ a τ', M.accumulate S c e τ = some (a, τ') ∧ τ' a = some v ∧ UInt8.ofNat a = S.place (UInt8.ofNat c) e ∧
      σ'.Covers c (S.intact (UInt8.ofNat c) e) τ'
  | .literal _ _, _, _, τ, _, _, hσ, h, he => by
    cases he
    exact ⟨c, _, rfl, τ.set_self c _, rfl, h.overwrite _ fun _ => hσ⟩
  | .name _ n, _, _, τ, v, _, hσ, h, he => by
    obtain ⟨d, hd, hv, rfl⟩ := eval_name he
    -- the variable is undefined, so it is not the one that is read
    have hne : d ≠ c := by
      rintro rfl
      rw [hσ] at hv
      cases hv
    refine ⟨d, τ, by simp [accumulate, hd], h d v (fun e => absurd e hne) hv, ?_, h.of_none fun _ => hσ⟩
    rw [Scope.place, Scope.register?_eq hd, Option.getD_some]
  | .group _ e, _, _, _, _, hs, hσ, h, he => accumulate_of_eval e hs hσ h he
  | .binary _ op left right, σ, σ', τ, v, hs, hσ, h, he => by
    cases hf : Expr.fold? op left right with
    | some y =>
      simp only [eval, accumulate, calculated?_eq, hf] at he ⊢
      cases he
      exact ⟨c, _, rfl, τ.set_self c _, rfl, h.overwrite _ fun _ => hσ⟩
    | none =>
      obtain ⟨va, σ₁, vb, o, h₁, h₂, ho, hv⟩ := eval_binary hf he
      simp only [Scope.settled, Bool.and_eq_true, Bool.not_eq_true'] at hs
      obtain ⟨⟨hs₁, hwait⟩, hread⟩ := hs
      obtain ⟨a, τ₁, ht₁, hu, hp, hτ₁⟩ := accumulate_of_eval left hs₁ hσ h h₁
      rw [← hp] at hwait hread
      -- with the left value in its place the variable must not be read any more
      have hfirst (hx :
          (S.intact (UInt8.ofNat c) left && !S.mustKeep (UInt8.ofNat c) (UInt8.ofNat a) right) = false) :
          S.reads (UInt8.ofNat c) right = false := by
        rwa [hx, Bool.or_false, Bool.not_eq_true'] at hread
      obtain ⟨τ₂, ht₂, hτ₂⟩ := eval_covers hc hS right hfirst (hτ₁.keep right) h₂
      have hw : τ₂ (keptCell S c a right) = some va := by
        rw [keptIn_cell] at hwait
        rw [eval_frame right hwait ht₂, Store.keep_cell hu]
      refine ⟨c, τ₂.set c v, ?_, τ₂.set_self c v, rfl, ?_⟩
      · simp [accumulate, calculated?_eq, operator?_eq, hf, ht₁, hu, ht₂, hw, ho, hv]
      refine hτ₂.overwrite v fun hi => ?_
      simp only [Scope.intact, Bool.not_eq_true', Bool.or_eq_false_iff] at hi
      rw [eval_frame right hi.2 h₂, eval_frame left hi.1 h₁, hσ]
  | .unary _ op e, _, _, τ, v, hs, hσ, h, he => by
    rcases eval_unary he with ⟨k, rfl, hn, rfl, rfl⟩ | ⟨w, rfl, hn, h₁, hv⟩ | ⟨w, rfl, h₁, hv⟩
    · exact ⟨c, _, by simp [accumulate, negated?_eq, hn], τ.set_self c _, rfl, h.overwrite _ fun _ => hσ⟩
    · obtain ⟨a, τ₁, ht₁, hu, -, hτ₁⟩ := accumulate_of_eval e hs hσ h h₁
      refine ⟨c, τ₁.set c v, by simp [accumulate, negated?_eq, hn, ht₁, hu, hv], τ₁.set_self c v, rfl,
        hτ₁.overwrite v fun hi => ?_⟩
      rw [eval_frame e (by simpa [Scope.intact] using hi) h₁, hσ]
    · obtain ⟨a, τ₁, ht₁, hu, -, hτ₁⟩ := accumulate_of_eval e hs hσ h h₁
      refine ⟨c, τ₁.set c v, by simp [accumulate, ht₁, hu, hv], τ₁.set_self c v, rfl, hτ₁.overwrite v fun hi => ?_⟩
      rw [eval_frame e (by simpa [Scope.intact] using hi) h₁, hσ]
  | .assign _ n e, _, _, _, v, hs, hσ, h, he => by
    obtain ⟨d, σ₁, hd, h₁, rfl⟩ := eval_assign he
    obtain ⟨a, τ₁, ht₁, hu, -, hτ₁⟩ := accumulate_of_eval e hs hσ h h₁
    refine ⟨d, τ₁.set d v, by simp [accumulate, hd, ht₁, hu], τ₁.set_self d v, ?_, hτ₁.assign hc hS hd v⟩
    rw [Scope.place, Scope.register?_eq hd, Option.getD_some]
  | .hole, _, _, _, _, _, _, _, he => by cases he

end

end

end Machine

/-! ## Declarations -/

structure Chunk.Has (ch : Chunk) (g g' : Generator) : Prop where
  code : ∀ i, g.chunk.code.size ≤ i → i < g'.chunk.code.size → ch.code[i]? = g'.chunk.code[i]?
  consts : ∀ i, g.chunk.consts.size ≤ i → i < g'.chunk.consts.size → ch.consts[i]? = g'.chunk.consts[i]?

theorem getElem?_extended {α β : Type} {xs ys : Array α} {l : List β} {f : β → α}
    (h : ys.toList = xs.toList ++ l.map f) {i : Nat} {b : β} (hb : l[i]? = some b) :
    ys[xs.size + i]? = some (f b) := by
  rw [← Array.getElem?_toList, h, ← Array.length_toList, List.getElem?_append_right (Nat.le_add_right ..),
    Nat.add_sub_cancel_left, List.getElem?_map, hb, Option.map_some]

theorem Extends.placed {g g' : Generator} {F : Fragment} {ch : Chunk} (x : Extends g F g') (h : ch.Has g g') :
    Placed ch g.chunk.code.size g.chunk.consts.size F where
  code i p hp := by
    have hi := (List.getElem?_eq_some_iff.mp hp).1
    rw [h.code _ (Nat.le_add_right ..) (by rw [x.size]; omega)]
    exact getElem?_extended x.code hp
  consts i k hk := by
    have hi := (List.getElem?_eq_some_iff.mp hk).1
    rw [h.consts _ (Nat.le_add_right ..) (by rw [x.pool]; omega)]
    exact getElem?_extended x.consts hk

namespace Gen

def aside (p : Place) (n : Bytes) (q : Position) (e : Expr) : Gen Unit := do
  enter p.pos
  let r ← alloc q
  declare n r
  let scratch ← alloc p.pos
  let v ← expr e scratch
  copy r v
  free scratch

theorem aside_emits {S : Scope} {g g' : Generator} {p : Place} {n : Bytes} {q : Position} {e : Expr}
    (hS : Stands g S) (h : aside p n q e g = .ok () g') :
    ∃ F r, NextCode (S.declare n) (S.cells + 1) g.chunk.consts.size e F r ∧
      Extends g (.take S.cells ++ (F ++ .one (.copy (UInt8.ofNat S.cells) r))) g' := by
  obtain ⟨g₀, hS₀, hk, hx, h⟩ := entered hS h
  obtain ⟨t, g₁, h₁, h⟩ := bind_ok h
  obtain ⟨_, g₂, h₂, h⟩ := bind_ok h
  obtain ⟨s, g₃, h₃, h⟩ := bind_ok h
  obtain ⟨r, g₄, h₄, h⟩ := bind_ok h
  obtain ⟨_, g₅, h₅, h₆⟩ := bind_ok h
  obtain ⟨x₂, hS₂, -⟩ := declare_stands hS₀ h₁ h₂
  obtain ⟨-, rfl, -⟩ := alloc_ok h₁
  obtain ⟨F, hF, e₄⟩ := scratch_emits hS₂ h₃ h₄
  rw [hS₀.live] at h₅
  have e₅ := (e₄.trans (emit_emits (p := .copy (UInt8.ofNat S.cells) r) h₅)).trans (free_emits h₆)
  have x := hx _ (x₂.trans e₅.toExtends)
  rw [Fragment.append_empty] at x
  rw [x₂.pool, hk] at hF
  exact ⟨F, r, hF, x⟩

end Gen

namespace Machine

def Initializes (M : Machine) (ch : Chunk) (g g' : Generator) (c : Nat) (v : M.Value) (σ : M.Store)
    (regs : Register → M.Value) (out : List M.Value) : Prop :=
  ∃ regs', M.Reaches ch ⟨g.chunk.code.size, regs, out⟩ ⟨g'.chunk.code.size, regs', out⟩ ∧
    regs' (UInt8.ofNat c) = v ∧ Agrees (c + 1) (σ.set c v) regs'

section
variable {M : Machine} {S : Scope} {g g' : Generator} {ch : Chunk} {p : Place} {n : Bytes} {q : Position} {e : Expr}
  {σ σ' : M.Store} {regs : Register → M.Value} {v : M.Value}

theorem Initializes.unique {c : Nat} {τ : M.Store} {w : M.Value} {out : List M.Value}
    (hend : ch.code.size = g'.chunk.code.size) (h : M.Initializes ch g g' c v σ regs out)
    (h' : M.Initializes ch g g' c w τ regs out) : v = w := by
  obtain ⟨regs₁, r₁, rfl, -⟩ := h
  obtain ⟨regs₂, r₂, rfl, -⟩ := h'
  have hstep : Relator.RightUnique (M.Step ch) := fun _ _ _ h₁ h₂ => Option.some.inj (h₁.symm.trans h₂)
  have hstuck {regs : Register → M.Value} {t : M.State} : ¬ M.Step ch ⟨g'.chunk.code.size, regs, out⟩ t := by
    simp [Step, step, ← hend]
  rcases Relation.ReflTransGen.total_of_right_unique hstep r₁ r₂ with h | h
  · rcases h.cases_head with h | ⟨_, h, -⟩
    · cases h
      rfl
    · exact absurd h hstuck
  · rcases h.cases_head with h | ⟨_, h, -⟩
    · cases h
      rfl
    · exact absurd h hstuck

theorem var_initializes {a : Nat} (hS : Gen.Stands g S) (hs : Gen.stmt (.var p n q (some e)) g = .ok () g')
    (hch : ch.Has g g') (ha : Agrees S.cells σ regs) (out : List M.Value)
    (he : M.accumulate (S.declare n) S.cells e σ = some (a, σ')) (hv : σ' a = some v) :
    M.Initializes ch g g' S.cells v σ' regs out := by
  obtain ⟨X, hX, x, -⟩ := Gen.stmt_emits _ hS hs
  cases hX with
  | init hF =>
    obtain ⟨hlt, G, hG, rfl⟩ := hF
    have hp := (x.placed hch).declared
    obtain ⟨regs₁, r₁, rfl, ha₁⟩ :=
      accumulate_runs out rfl hlt hG rfl rfl hp.left.right (ha.mono (Nat.le_succ _)) he
    have r₂ := transfer_runs regs₁ out rfl hp.right
    rw [(ha₁ a v hv).2] at r₂
    refine ⟨_, ?_, Function.update_self .., ha₁.set (Nat.lt_succ_self _) hlt v⟩
    rw [x.size, Fragment.code_declared, Fragment.code_append, List.length_append, ← Nat.add_assoc]
    exact r₁.trans r₂

theorem aside_initializes (hS : Gen.Stands g S) (hs : Gen.aside p n q e g = .ok () g') (hch : ch.Has g g')
    (ha : Agrees S.cells σ regs) (out : List M.Value) (he : M.eval (S.declare n) e σ = some (v, σ')) :
    M.Initializes ch g g' S.cells v σ' regs out := by
  obtain ⟨F, r, hF, x⟩ := Gen.aside_emits hS hs
  have hp := (x.placed hch).right
  obtain ⟨regs₁, r₁, hv, ha₁⟩ := next_runs regs out hF hp.left (.cells (S.declare n) e) (ha.mono (Nat.le_succ _)) he
  have r₂ := copy_runs regs₁ out hp.right rfl
  rw [hv] at r₂
  refine ⟨_, ?_, Function.update_self .., ha₁.set (Nat.lt_succ_self _) (Nat.le_of_lt hF.1) v⟩
  rw [x.size, Fragment.code_append, Fragment.code_append, List.length_append, List.length_append, ← Nat.add_assoc,
    ← Nat.add_assoc]
  exact r₁.trans r₂

theorem Agrees.of_covers {c k : Nat} {τ : M.Store} (h : Agrees k τ regs) (hc : σ.Covers c true τ) :
    Agrees k σ regs :=
  fun d w hw => h d w (hc d w (fun _ => rfl) hw)

theorem settled_initializes (hS : Gen.Stands g S) (hs : Gen.stmt (.var p n q (some e)) g = .ok () g')
    (hch : ch.Has g g') (ha : Agrees S.cells σ regs) (out : List M.Value) (hlt : S.cells < maxRegisters)
    (hset : (S.declare n).settled (UInt8.ofNat S.cells) e = true) (he : M.eval (S.declare n) e σ = some (v, σ')) :
    M.Initializes ch g g' S.cells v σ' regs out := by
  have hnone : σ S.cells = none := by
    cases hσ : σ S.cells with
    | none => rfl
    | some w => exact absurd (ha _ w hσ).1 (Nat.lt_irrefl _)
  have hcovers : σ.Covers S.cells false σ := fun _ _ _ h => h
  obtain ⟨a, τ, ht, hv, -, hτ⟩ := accumulate_of_eval (S := S.declare n) (Nat.lt_succ_self _) hlt e hset hnone
    hcovers he
  obtain ⟨regs', hr, hx, hag⟩ := var_initializes hS hs hch ha out ht hv
  exact ⟨regs', hr, hx, hag.of_covers (hτ.set S.cells v fun _ => .inr rfl)⟩

end

end Machine

/-- The code of a declaration leaves in the register of its variable what `accumulate` makes of the initializer, and
nothing else. If this is settled, as it always is where it does not mention the variable, that is its value,
operands from left to right. Compiled to a register of its own and then copied, the initializer always has that
value. -/
theorem initializer_in_place {M : Machine} {S : Scope} {g g' : Generator} {ch : Chunk} {p : Place} {n : Bytes}
    {q : Position} {e : Expr} (hS : Gen.Stands g S) (hs : Gen.stmt (.var p n q (some e)) g = .ok () g')
    (hch : ch.Has g g') {σ : M.Store} {regs : Register → M.Value} (ha : Machine.Agrees S.cells σ regs)
    (out : List M.Value) :
    (∀ a τ w, M.accumulate (S.declare n) S.cells e σ = some (a, τ) → τ a = some w →
      M.Initializes ch g g' S.cells w τ regs out ∧
      (ch.code.size = g'.chunk.code.size → ∀ v σ', M.Initializes ch g g' S.cells v σ' regs out → v = w)) ∧
    (∀ v σ', M.eval (S.declare n) e σ = some (v, σ') →
      ((S.declare n).settled (UInt8.ofNat S.cells) e = true → M.Initializes ch g g' S.cells v σ' regs out) ∧
      ∀ g₁ ch₁, Gen.aside p n q e g = .ok () g₁ → ch₁.Has g g₁ → M.Initializes ch₁ g g₁ S.cells v σ' regs out) ∧
    (e.mentions n = false → (S.declare n).settled (UInt8.ofNat S.cells) e = true) := by
  have hlt : S.cells < maxRegisters := by
    obtain ⟨X, hX, -⟩ := Gen.stmt_emits _ hS hs
    cases hX with
    | init hF => exact hF.1
  refine ⟨fun a τ w he hw => ?_, fun v σ' he => ⟨fun hset => ?_, ?_⟩, ?_⟩
  · have hw := Machine.var_initializes hS hs hch ha out he hw
    exact ⟨hw, fun hend v σ' hv => hv.unique hend hw⟩
  · exact Machine.settled_initializes hS hs hch ha out hlt hset he
  · exact fun g₁ ch₁ hs₁ hch₁ => Machine.aside_initializes hS hs₁ hch₁ ha out he
  · intro hm
    refine Scope.settled_of_below ?_
    rw [toNat_register hlt]
    exact .declare hm

/-- The initializers of `var x = 1 + (x = 5);` and `var x = (x = 3) * x;`. -/
def selfAssigned : Expr := .binary {} .plus (.literal {} (.int 1))
    (.group {} (.assign {} [120] (.literal {} (.int 5))))

def selfRead : Expr := .binary {} .star (.group {} (.assign {} [120] (.literal {} (.int 3)))) (.name {} [120])

theorem selfAssigned_overwritten : ∃ g g₁ g₂ : Generator, ∃ σ' τ σ₂ : Machine.whole.Store,
    Gen.stmt (.var {} [120] {} (some selfAssigned)) {} = .ok () g ∧
    Gen.aside {} [120] {} selfAssigned {} = .ok () g₁ ∧
    Gen.stmt (.var {} [120] {} (some selfRead)) {} = .ok () g₂ ∧
    (Scope.empty.declare [120]).settled 0 selfAssigned = false ∧
    Machine.whole.eval (Scope.empty.declare [120]) selfAssigned (fun _ => none) = some ((6 : Int), σ') ∧
    Machine.whole.Initializes g.chunk {} g 0 (10 : Int) τ (fun _ => (0 : Int)) [] ∧
    (∀ σ, ¬ Machine.whole.Initializes g.chunk {} g 0 (6 : Int) σ (fun _ => (0 : Int)) []) ∧
    Machine.whole.Initializes g₁.chunk {} g₁ 0 (6 : Int) σ' (fun _ => (0 : Int)) [] ∧
    (Scope.empty.declare [120]).settled 0 selfRead = true ∧
    Machine.whole.eval (Scope.empty.declare [120]) selfRead (fun _ => none) = some ((9 : Int), σ₂) ∧
    Machine.whole.Initializes g₂.chunk {} g₂ 0 (9 : Int) σ₂ (fun _ => (0 : Int)) [] := by
  obtain ⟨g, hg⟩ : ∃ g, Gen.stmt (.var {} [120] {} (some selfAssigned)) {} = .ok () g := ⟨_, rfl⟩
  obtain ⟨g₁, hg₁⟩ : ∃ g, Gen.aside {} [120] {} selfAssigned {} = .ok () g := ⟨_, rfl⟩
  obtain ⟨g₂, hg₂⟩ : ∃ g, Gen.stmt (.var {} [120] {} (some selfRead)) {} = .ok () g := ⟨_, rfl⟩
  have hregs : Machine.Agrees (M := Machine.whole) 0 (fun _ => none) fun _ => (0 : Int) := fun _ _ h => by cases h
  have hself (g : Generator) : g.chunk.Has {} g := ⟨fun _ _ _ => rfl, fun _ _ _ => rfl⟩
  obtain ⟨hacc, hval, -⟩ := initializer_in_place stands_empty hg (hself g) hregs []
  obtain ⟨-, hval₂, -⟩ := initializer_in_place stands_empty hg₂ (hself g₂) hregs []
  obtain ⟨hten, hother⟩ := hacc 0 _ (10 : Int) rfl rfl
  refine ⟨g, g₁, g₂, _, _, _, hg, hg₁, hg₂, rfl, rfl, hten, fun σ h => ?_, ?_, rfl, rfl, ?_⟩
  · exact absurd (hother rfl (6 : Int) σ h) (by decide : (6 : Int) ≠ 10)
  · exact (hval (6 : Int) _ rfl).2 g₁ g₁.chunk hg₁ (hself g₁)
  · exact (hval₂ (9 : Int) _ rfl).1 rfl

end RegCode
