import RegCode.Proofs.Demand
import RegCode.Proofs.Generation
import RegCode.Proofs.Grammar

/-!
# Which programs compile

A program without gaps compiles if and only if six conditions on its text hold: every declaration could be read,
names are declared before they are used, the operators are known, the registers and the constants are enough, and
no jump is too far. The conditions are carried through the text along with the scope and the number of constants,
and where they hold the rules give code.
-/

namespace RegCode

namespace Expr

def whole : Expr → Bool
  | literal .. | name .. => true
  | binary _ _ left right => left.whole && right.whole
  | unary _ _ e | group _ e | assign _ _ e => e.whole
  | hole => false

/-- The operators are those that the language has. -/
def operable : Expr → Bool
  | literal .. | name .. | hole => true
  | binary _ op left right => op.joins && left.operable && right.operable
  | unary _ op e => op.signs && e.operable
  | group _ e | assign _ _ e => e.operable

end Expr

namespace Stmt

mutual

/-- There is no gap in the statement, function bodies and returned values included. -/
def whole : Stmt → Bool
  | .var _ _ _ init => init.all Expr.whole
  | .print _ e | .expr _ e => e.whole
  | .block _ body => wholeAll body
  | .ifThen _ cond yes => cond.whole && yes.whole
  | .ifElse _ cond yes no => cond.whole && yes.whole && no.whole
  | .while _ cond body => cond.whole && body.whole
  | .ret _ value => value.all Expr.whole
  | .func _ _ _ _ body => wholeAll body
  | .bad .. => true
  | .hole => false

def wholeAll : List Stmt → Bool
  | [] => true
  | s :: rest => s.whole && wholeAll rest

end

mutual

/-- Every declaration in the statement could be read, function bodies included. -/
def intact : Stmt → Bool
  | .block _ body => intactAll body
  | .ifThen _ _ yes => yes.intact
  | .ifElse _ _ yes no => yes.intact && no.intact
  | .while _ _ body => body.intact
  | .func _ _ _ _ body => intactAll body
  | .bad .. => false
  | .var .. | .print .. | .expr .. | .ret .. | .hole => true

def intactAll : List Stmt → Bool
  | [] => true
  | s :: rest => s.intact && intactAll rest

end

end Stmt

def Program.whole (p : Program) : Bool := Stmt.wholeAll p.body

structure Program.Compilable (p : Program) : Prop where
  intact : Stmt.intactAll p.body = true
  /-- A declaration comes before its own initializer. -/
  declared : ∀ before t after e n, p.tasks = before ++ t :: after → t.value? = some e → e.mentions n = true →
    ∃ u ∈ before ++ [t], u.name? = some n
  operators : ∀ t ∈ p.tasks, ∀ e, t.value? = some e → e.operable = true
  registers : Task.demand 0 p.tasks ≤ 256
  constants : Task.load p.tasks ≤ 65536
  jumps : ∀ i j : Nat, JumpsAll .empty 0 0 p.body i j → Reachable (j - i)

/-! ## Declarations that could not be read -/

namespace Stmt

def Readable (l : List Stmt) : Prop := ∀ s ∈ l, s.bad? = none

theorem readable_cons {s : Stmt} {l : List Stmt} : Readable (s :: l) ↔ s.bad? = none ∧ Readable l :=
  List.forall_mem_cons

mutual

theorem readable_visitOnto : ∀ (acc : List Stmt) (s : Stmt),
    Readable (visitOnto acc s) ↔ Readable acc ∧ s.intact = true
  | acc, .hole => by simp [visitOnto, intact]
  | acc, .block _ body => by simp [visitOnto, intact, readable_visitAllOnto _ body, readable_cons, bad?]
  | acc, .ifThen _ _ yes => by simp [visitOnto, intact, readable_visitOnto _ yes, readable_cons, bad?]
  | acc, .ifElse _ _ yes no => by
    simp [visitOnto, intact, readable_visitOnto _ no, readable_visitOnto _ yes, readable_cons, bad?, and_assoc]
  | acc, .while _ _ body => by simp [visitOnto, intact, readable_visitOnto _ body, readable_cons, bad?]
  | acc, .func _ _ _ _ body => by simp [visitOnto, intact, readable_visitAllOnto _ body, readable_cons, bad?]
  | acc, .bad .. => by simp [visitOnto, intact, readable_cons, bad?]
  | acc, .var .. | acc, .print .. | acc, .expr .. | acc, .ret .. => by simp [visitOnto, intact, readable_cons, bad?]

theorem readable_visitAllOnto : ∀ (acc : List Stmt) (l : List Stmt),
    Readable (visitAllOnto acc l) ↔ Readable acc ∧ intactAll l = true
  | acc, [] => by simp [visitAllOnto, intactAll]
  | acc, s :: rest => by
    simp [visitAllOnto, intactAll, readable_visitAllOnto _ rest, readable_visitOnto _ s, and_assoc]

end

end Stmt

theorem Program.firstBad?_eq_none_iff (p : Program) : p.firstBad? = none ↔ Stmt.intactAll p.body = true := by
  unfold firstBad? Stmt.visited
  rw [List.findSome?_eq_none_iff]
  simp only [List.mem_reverse]
  rw [show (∀ s ∈ Stmt.visitAllOnto [] p.body, s.bad? = none) ↔ _ from Stmt.readable_visitAllOnto [] p.body]
  simp [Stmt.Readable]

/-! ## Names and operators -/

/-- The names of the expression are declared and its operators are known. -/
structure Expr.Known (S : Scope) (e : Expr) : Prop where
  names : ∀ n, e.mentions n = true → S.names n ≠ none
  operators : e.operable = true

namespace Expr.Known

variable {S : Scope} {p : Place} {op : Kind} {n : Bytes} {e e' : Expr}

theorem binary_iff : (Expr.binary p op e e').Known S ↔ op.joins = true ∧ e.Known S ∧ e'.Known S := by
  constructor
  · rintro ⟨hn, ho⟩
    simp only [operable, Bool.and_eq_true] at ho
    refine ⟨ho.1.1, ⟨fun n hm => hn n ?_, ho.1.2⟩, ⟨fun n hm => hn n ?_, ho.2⟩⟩ <;> simp [mentions, hm]
  · rintro ⟨hj, h, h'⟩
    refine ⟨fun n hm => ?_, by simp [operable, hj, h.operators, h'.operators]⟩
    rcases Bool.or_eq_true_iff.mp hm with hm | hm
    · exact h.names n hm
    · exact h'.names n hm

theorem unary_iff : (Expr.unary p op e).Known S ↔ op.signs = true ∧ e.Known S := by
  constructor
  · rintro ⟨hn, ho⟩
    simp only [operable, Bool.and_eq_true] at ho
    exact ⟨ho.1, hn, ho.2⟩
  · rintro ⟨hs, h⟩
    exact ⟨h.names, by simp [operable, hs, h.operators]⟩

theorem group_iff : (Expr.group p e).Known S ↔ e.Known S :=
  ⟨fun h => ⟨h.names, h.operators⟩, fun h => ⟨h.names, h.operators⟩⟩

theorem name_iff : (Expr.name p n).Known S ↔ S.names n ≠ none := by
  constructor
  · intro h
    exact h.names n (by simp [mentions])
  · intro h
    refine ⟨fun m hm => ?_, rfl⟩
    simp only [mentions, beq_iff_eq] at hm
    exact hm ▸ h

theorem assign_iff : (Expr.assign p n e).Known S ↔ S.names n ≠ none ∧ e.Known S := by
  constructor
  · intro h
    exact ⟨h.names n (by simp [mentions]), fun m hm => h.names m (by simp [mentions, hm]), h.operators⟩
  · rintro ⟨hn, h⟩
    refine ⟨fun m hm => ?_, h.operators⟩
    simp only [mentions, Bool.or_eq_true, beq_iff_eq] at hm
    rcases hm with rfl | hm
    · exact hn
    · exact h.names m hm

theorem literal (v : Literal) : (Expr.literal p v).Known S := ⟨fun _ h => absurd h Bool.false_ne_true, rfl⟩

end Expr.Known

theorem Kind.joins_iff {op : Kind} : op.joins = true ↔ ∃ o, op.operation? = some o := by
  cases op <;> simp [joins, operation?]

theorem Expr.fold?_eq_some {op : Kind} {left right : Expr} {x : Binary64} (h : fold? op left right = some x) :
    op.joins = true ∧ ∃ p q v w, left = .literal p v ∧ right = .literal q w := by
  unfold fold? at h
  split at h
  · next hl hr ha =>
    cases left <;> simp only [number?, reduceCtorEq] at hl
    cases right <;> simp only [number?, reduceCtorEq] at hr
    refine ⟨?_, _, _, _, _, rfl, rfl⟩
    cases op <;> first | rfl | cases ha
  · cases h

theorem Expr.negate?_eq_some {e : Expr} {c : Const} (h : e.negate? = some c) : ∃ p v, e = .literal p v := by
  unfold negate? at h
  split at h
  · exact ⟨_, _, rfl⟩
  · exact ⟨_, _, rfl⟩
  · cases h

section
variable {S : Scope} {k : Nat} {e : Expr} {F : Fragment} {r : Register}

theorem ExprCode.known {d : Nat} {t : Register} (h : ExprCode S d k e t F r) : e.Known S := by
  induction h with
  | literal => exact .literal _
  | name hc => exact Expr.Known.name_iff.mpr (by simp [hc])
  | group _ ih => exact Expr.Known.group_iff.mpr ih
  | folded hf =>
    obtain ⟨hj, _, _, _, _, rfl, rfl⟩ := Expr.fold?_eq_some hf
    exact Expr.Known.binary_iff.mpr ⟨hj, .literal _, .literal _⟩
  | binary _ ho _ _ _ ihF ihG => exact Expr.Known.binary_iff.mpr ⟨Kind.joins_iff.mpr ⟨_, ho⟩, ihF, ihG⟩
  | negated hn =>
    obtain ⟨_, _, rfl⟩ := Expr.negate?_eq_some hn
    exact Expr.Known.unary_iff.mpr ⟨rfl, .literal _⟩
  | minus _ _ _ _ ih | bang _ _ _ ih => exact Expr.Known.unary_iff.mpr ⟨rfl, ih⟩
  | assign hc _ ih => exact Expr.Known.assign_iff.mpr ⟨by simp [hc], ih⟩

theorem NextCode.known {cells : Nat} (h : NextCode S cells k e F r) : e.Known S := by
  obtain ⟨-, G, hG, -⟩ := h
  exact hG.known

end

theorem Expr.Known.exists_code {S : Scope} : ∀ {e : Expr} {d k : Nat} (t : Register), e.Known S → e.whole = true →
    d + e.need ≤ maxRegisters → k + e.constants ≤ maxConsts → ∃ F r, ExprCode S d k e t F r
  | .literal .., _, _, _, _, _, _, hk => ⟨_, _, .literal hk⟩
  | .name p n, d, k, t, h, _, _, _ => by
    obtain ⟨c, hc⟩ := Option.ne_none_iff_exists'.mp (name_iff.mp h)
    exact ⟨_, _, .name hc⟩
  | .group p e, d, k, t, h, hw, hd, hk => by
    obtain ⟨F, r, hF⟩ := exists_code t (group_iff.mp h) hw hd hk
    exact ⟨F, r, .group hF⟩
  | .binary p op left right, d, k, t, h, hw, hd, hk => by
    obtain ⟨hj, hl, hr⟩ := binary_iff.mp h
    cases hf : fold? op left right with
    | some x =>
      rw [constants, folded_binary, hf] at hk
      exact ⟨_, _, .folded hf hk⟩
    | none =>
      obtain ⟨o, ho⟩ := Kind.joins_iff.mp hj
      simp only [whole, Bool.and_eq_true] at hw
      rw [need_binary hf] at hd
      rw [constants_binary hf] at hk
      obtain ⟨F, a, hF⟩ := exists_code (d := d) (k := k) t hl hw.1 (by omega) (by omega)
      -- the right side has one register less, and the constants of the left side are in the pool
      have hk' := hF.load_eq
      obtain ⟨G, b, hG⟩ := exists_code (d := d + 1) (k := k + F.consts.length) (UInt8.ofNat d) hr hw.2
        (by omega) (by omega)
      exact ⟨_, _, .binary hf ho hF (by omega) hG⟩
  | .unary p op e, d, k, t, h, hw, hd, hk => by
    obtain ⟨hs, he⟩ := unary_iff.mp h
    by_cases hf : (Expr.unary p op e).folded = true
    · simp only [folded_unary, Bool.and_eq_true, beq_iff_eq, Option.isSome_iff_exists] at hf
      obtain ⟨rfl, c, hc⟩ := hf
      simp only [constants, folded_unary, hc] at hk
      exact ⟨_, _, .negated hc hk⟩
    · rw [Bool.not_eq_true] at hf
      rw [need_unary hf] at hd
      rw [constants_unary hf] at hk
      obtain ⟨F, a, hF⟩ := exists_code (d := d) (k := k) t he hw (by omega) (by omega)
      have hk' := hF.load_eq
      cases op with
      | minus => exact ⟨_, _, .minus (by simpa [folded_unary] using hf) hF (by omega) (by omega)⟩
      | bang => exact ⟨_, _, .bang hF (by omega) (by omega)⟩
      | _ => cases hs
  | .assign p n e, d, k, t, h, hw, hd, hk => by
    obtain ⟨hn, he⟩ := assign_iff.mp h
    obtain ⟨c, hc⟩ := Option.ne_none_iff_exists'.mp hn
    obtain ⟨F, a, hF⟩ := exists_code t he hw hd hk
    exact ⟨_, _, .assign hc hF⟩

theorem Expr.Known.exists_next {S : Scope} {cells k : Nat} {e : Expr} (h : e.Known S) (hw : e.whole = true)
    (hd : cells + 1 + e.need ≤ maxRegisters) (hk : k + e.constants ≤ maxConsts) :
    ∃ F r, NextCode S cells k e F r := by
  obtain ⟨G, r, hG⟩ := h.exists_code (UInt8.ofNat cells) hw hd hk
  exact ⟨_, r, by omega, G, hG, rfl⟩

/-! ## Tasks in a scope -/

namespace Task

def Known (S : Scope) (t : Task) : Prop := ∀ e, t.value? = some e → e.Known (t.scope S)

def KnownAll : Scope → List Task → Prop
  | _, [] => True
  | S, t :: rest => t.Known S ∧ KnownAll (t.scope S) rest

/-- Behind a scope and `k` constants, the tasks are known and keep within the limits. -/
structure Fit (S : Scope) (k : Nat) (ts : List Task) : Prop where
  known : KnownAll S ts
  registers : demand S.cells ts ≤ maxRegisters
  constants : k + load ts ≤ maxConsts

section
variable {S : Scope} {k : Nat} {e : Expr} {ts us : List Task}

theorem knownAll_append : KnownAll S (ts ++ us) ↔ KnownAll S ts ∧ KnownAll (S.behind ts) us := by
  induction ts generalizing S with
  | nil => simp [KnownAll]
  | cons t ts ih => simp [KnownAll, ih, and_assoc]

theorem known_evaluate : (evaluate e).Known S ↔ e.Known S := by
  simp [Known, value?, scope]

theorem knownAll_evaluate : KnownAll S (.evaluate e :: ts) ↔ e.Known S ∧ KnownAll S ts :=
  and_congr_left' known_evaluate

theorem Fit.append (h : Fit S k (ts ++ us)) : Fit S k ts ∧ Fit (S.behind ts) (k + load ts) us := by
  obtain ⟨hn, hd, hk⟩ := h
  rw [demand_append, Nat.max_le] at hd
  rw [load_append] at hk
  obtain ⟨hn, hn'⟩ := knownAll_append.mp hn
  exact ⟨⟨hn, hd.1, by omega⟩, hn', hd.2, by omega⟩

/-- A task that fits has code for its expression, and what comes behind it fits behind that. -/
theorem Fit.next (h : Fit S k (.evaluate e :: ts)) (hw : e.whole = true) :
    ∃ F r, NextCode S S.cells k e F r ∧ Fit S (k + F.consts.length) ts := by
  obtain ⟨hn, hd, hk⟩ := h
  rw [demand_evaluate, Nat.max_le] at hd
  have hk' : k + (e.constants + load ts) ≤ maxConsts := hk
  obtain ⟨he, hn⟩ := knownAll_evaluate.mp hn
  obtain ⟨F, r, hF⟩ := he.exists_next (k := k) hw hd.1 (by omega)
  have hl := hF.load_eq
  exact ⟨F, r, hF, hn, hd.2, by omega⟩

end

end Task

mutual

theorem StmtCode.known : ∀ {S : Scope} {k : Nat} {s : Stmt} {X : Fragment}, StmtCode S k s X →
    Task.KnownAll S s.tasks
  | _, _, _, _, .print hF => Task.knownAll_evaluate.mpr ⟨hF.known, trivial⟩
  | _, _, _, _, .declare _ => ⟨fun e he => absurd he (Option.some_ne_none e).symm, trivial⟩
  | _, _, _, _, .init hF => ⟨fun _ he => Option.some.inj he ▸ hF.known, trivial⟩
  | _, _, _, _, .expr hF => Task.knownAll_evaluate.mpr ⟨hF.known, trivial⟩
  | _, _, _, _, .block hB => hB.known
  | _, _, _, _, .ifThen hF hY _ => Task.knownAll_evaluate.mpr ⟨hF.known, hY.known⟩
  | _, _, _, _, .ifElse hF hY _ hN _ =>
    Task.knownAll_evaluate.mpr ⟨hF.known, Task.knownAll_append.mpr ⟨hY.known, Scope.after_eq .. ▸ hN.known⟩⟩
  | _, _, _, _, .while hF hB _ _ => Task.knownAll_evaluate.mpr ⟨hF.known, hB.known⟩
  | _, _, _, _, .ret | _, _, _, _, .func => trivial

theorem StmtsCode.known : ∀ {S : Scope} {k : Nat} {l : List Stmt} {X : Fragment}, StmtsCode S k l X →
    Task.KnownAll S (Stmt.tasksAll l)
  | _, _, _, _, .nil => trivial
  | _, _, _, _, .cons hF hG => Task.knownAll_append.mpr ⟨hF.known, Scope.after_eq .. ▸ hG.known⟩

end

/-! ## Jumps -/

mutual

theorem StmtCode.reachable : ∀ {S : Scope} {k pos : Nat} {s : Stmt} {X : Fragment}, StmtCode S k s X →
    ∀ {i j : Nat}, Jumps S k pos s i j → Reachable (j - i)
  | _, _, _, _, _, .print _, _, _, h => by cases h
  | _, _, _, _, _, .declare _, _, _, h => by cases h
  | _, _, _, _, _, .init _, _, _, h => by cases h
  | _, _, _, _, _, .expr _, _, _, h => by cases h
  | _, _, _, _, _, .block hB, _, _, h => by
    cases h with
    | block h => exact hB.reachable h
  | _, _, _, _, _, .ifThen hF hY hd, _, _, h => by
    cases h with
    | skip eF eX =>
      -- the text has one code only, so the code that the jump is measured by is the one at hand
      cases hF.code?_eq.symm.trans eF
      cases (StmtCode.ifThen hF hY hd).code?_eq.symm.trans eX
      simp only [Reachable, Fragment.size_append, Fragment.size_one] at hd ⊢
      omega
    | ifThen eF h =>
      cases hF.code?_eq.symm.trans eF
      exact hY.reachable h
  | _, _, _, _, _, .ifElse hF hY hd hN hd', _, _, h => by
    cases h with
    | other eF eY =>
      cases hF.code?_eq.symm.trans eF
      cases hY.code?_eq.symm.trans eY
      simp only [Reachable] at hd ⊢
      omega
    | done eF eY eX =>
      cases hF.code?_eq.symm.trans eF
      cases hY.code?_eq.symm.trans eY
      cases (StmtCode.ifElse hF hY hd hN hd').code?_eq.symm.trans eX
      simp only [Reachable, Fragment.size_append, Fragment.size_one] at hd' ⊢
      omega
    | yes eF h =>
      cases hF.code?_eq.symm.trans eF
      exact hY.reachable h
    | no eF eY h =>
      cases hF.code?_eq.symm.trans eF
      cases hY.code?_eq.symm.trans eY
      exact hN.reachable h
  | _, _, _, _, _, .while hF hB hd hd', _, _, h => by
    cases h with
    | exit eF eX =>
      cases hF.code?_eq.symm.trans eF
      cases (StmtCode.while hF hB hd hd').code?_eq.symm.trans eX
      simp only [Reachable, Fragment.size_looped, Fragment.size_append, Fragment.size_one] at hd ⊢
      omega
    | back eF eB =>
      cases hF.code?_eq.symm.trans eF
      cases hB.code?_eq.symm.trans eB
      simp only [Reachable] at hd' ⊢
      omega
    | «while» eF h =>
      cases hF.code?_eq.symm.trans eF
      exact hB.reachable h
  | _, _, _, _, _, .ret, _, _, h => by cases h
  | _, _, _, _, _, .func, _, _, h => by cases h

theorem StmtsCode.reachable : ∀ {S : Scope} {k pos : Nat} {l : List Stmt} {X : Fragment}, StmtsCode S k l X →
    ∀ {i j : Nat}, JumpsAll S k pos l i j → Reachable (j - i)
  | _, _, _, _, _, .nil, _, _, h => by cases h
  | _, _, _, _, _, .cons hF hG, _, _, h => by
    cases h with
    | head h => exact hF.reachable h
    | tail eF h =>
      cases hF.code?_eq.symm.trans eF
      exact hG.reachable h

end

mutual

theorem Stmt.exists_code : ∀ (s : Stmt) {S : Scope} {k : Nat} (pos : Nat), s.whole = true → s.intact = true →
    Task.Fit S k s.tasks → (∀ i j : Nat, Jumps S k pos s i j → Reachable (j - i)) → ∃ X, StmtCode S k s X
  | .print _ e, S, k, pos, hw, _, h, _ => by
    obtain ⟨F, r, hF, -⟩ := h.next hw
    exact ⟨_, .print hF⟩
  | .var _ n _ none, S, k, pos, _, _, h, _ => ⟨_, .declare (Nat.max_le.mp h.registers).1⟩
  | .var _ n _ (some e), S, k, pos, hw, _, h, _ => by
    have he : e.Known (S.declare n) := h.known.1 e rfl
    obtain ⟨F, r, hF⟩ := he.exists_next (k := k) hw (Nat.max_le.mp h.registers).1 h.constants
    exact ⟨_, .init hF⟩
  | .expr _ e, S, k, pos, hw, _, h, _ => by
    obtain ⟨F, r, hF, -⟩ := h.next hw
    exact ⟨_, .expr hF⟩
  | .block _ body, S, k, pos, hw, hi, h, hj => by
    obtain ⟨F, hF⟩ := exists_codeAll body pos hw hi h fun i j hb => hj i j (.block hb)
    exact ⟨F, .block hF⟩
  | .ifThen p e yes, S, k, pos, hw, hi, h, hj => by
    obtain ⟨hwe, hwy⟩ := Bool.and_eq_true_iff.mp hw
    obtain ⟨F, r, hF, h'⟩ := h.next hwe
    have eF := hF.code?_eq
    obtain ⟨Y, hY⟩ := yes.exists_code _ hwy hi h' fun i j hy => hj i j (.ifThen eF hy)
    have eX : (Stmt.ifThen p e yes).code? S k = some (F ++ .one (.jumpUnless r (Y.code.length + 1)) ++ Y) := by
      simp [Stmt.code?, eF, hY.code?_eq]
    have hd := hj _ _ (.skip eF eX)
    refine ⟨_, .ifThen hF hY ?_⟩
    simp only [Reachable, Fragment.size_append, Fragment.size_one] at hd ⊢
    omega
  | .ifElse p e yes no, S, k, pos, hw, hi, h, hj => by
    obtain ⟨hw, hwn⟩ := Bool.and_eq_true_iff.mp hw
    obtain ⟨hwe, hwy⟩ := Bool.and_eq_true_iff.mp hw
    obtain ⟨hiy, hin⟩ := Bool.and_eq_true_iff.mp hi
    obtain ⟨F, r, hF, h'⟩ := h.next hwe
    obtain ⟨hy, hn⟩ := h'.append
    have eF := hF.code?_eq
    obtain ⟨Y, hY⟩ := yes.exists_code _ hwy hiy hy fun i j hy => hj i j (.yes eF hy)
    have eY := hY.code?_eq
    rw [← S.after_eq, ← hY.load_eq] at hn
    obtain ⟨N, hN⟩ := no.exists_code _ hwn hin hn fun i j hn => hj i j (.no eF eY hn)
    have eX : (Stmt.ifElse p e yes no).code? S k = some (F ++ .one (.jumpUnless r (Y.code.length + 2)) ++ Y ++
        .one (.jump (N.code.length + 1)) ++ N) := by
      simp [Stmt.code?, eF, eY, hN.code?_eq]
    have hd := hj _ _ (.other eF eY)
    have hd' := hj _ _ (.done eF eY eX)
    refine ⟨_, .ifElse hF hY ?_ hN ?_⟩
    all_goals
      simp only [Reachable, Fragment.size_append, Fragment.size_one] at hd hd' ⊢
      omega
  | .while p e body, S, k, pos, hw, hi, h, hj => by
    obtain ⟨hwe, hwb⟩ := Bool.and_eq_true_iff.mp hw
    obtain ⟨F, r, hF, h'⟩ := h.next hwe
    have eF := hF.code?_eq
    obtain ⟨B, hB⟩ := body.exists_code _ hwb hi h' fun i j hb => hj i j (.while eF hb)
    have eX : (Stmt.while p e body).code? S k = some (F ++ .one (.jumpUnless r (B.code.length + 2)) ++ B ++
        .one (.jump (-(F.code.length + 1 + B.code.length)))).looped := by
      simp [Stmt.code?, eF, hB.code?_eq]
    have hd := hj _ _ (.exit eF eX)
    have hd' := hj _ _ (.back eF hB.code?_eq)
    refine ⟨_, .while hF hB ?_ ?_⟩
    all_goals
      simp only [Reachable, Fragment.size_looped, Fragment.size_append, Fragment.size_one] at hd hd' ⊢
      omega
  | .ret .., _, _, _, _, _, _, _ => ⟨_, .ret⟩
  | .func .., _, _, _, _, _, _, _ => ⟨_, .func⟩
  | .bad .., _, _, _, _, hi, _, _ => absurd hi Bool.false_ne_true
  | .hole, _, _, _, hw, _, _, _ => absurd hw Bool.false_ne_true

theorem Stmt.exists_codeAll : ∀ (l : List Stmt) {S : Scope} {k : Nat} (pos : Nat), Stmt.wholeAll l = true →
    Stmt.intactAll l = true → Task.Fit S k (Stmt.tasksAll l) →
    (∀ i j : Nat, JumpsAll S k pos l i j → Reachable (j - i)) → ∃ X, StmtsCode S k l X
  | [], _, _, _, _, _, _, _ => ⟨_, .nil⟩
  | s :: rest, S, k, pos, hw, hi, h, hj => by
    obtain ⟨hws, hwr⟩ := Bool.and_eq_true_iff.mp hw
    obtain ⟨his, hir⟩ := Bool.and_eq_true_iff.mp hi
    obtain ⟨hs, hr⟩ := h.append
    obtain ⟨F, hF⟩ := s.exists_code pos hws his hs fun i j hs => hj i j (.head hs)
    rw [← S.after_eq, ← hF.load_eq] at hr
    obtain ⟨G, hG⟩ := exists_codeAll rest _ hwr hir hr fun i j hr => hj i j (.tail hF.code?_eq hr)
    exact ⟨_, .cons hF hG⟩

end

/-! ## The conditions -/

namespace Scope

theorem names_behind {S : Scope} {ts : List Task} {n : Bytes} :
    (S.behind ts).names n ≠ none ↔ S.names n ≠ none ∨ ∃ u ∈ ts, u.name? = some n := by
  induction ts generalizing S with
  | nil => simp
  | cons t ts ih =>
    have ht : (t.scope S).names n ≠ none ↔ S.names n ≠ none ∨ t.name? = some n := by
      cases t with
      | evaluate e => simp [Task.scope, Task.name?]
      | declare m init =>
        by_cases hn : n = m
        · simp [Task.scope, Task.name?, hn, names_declare_self]
        · simp [Task.scope, Task.name?, names_declare_of_ne S hn, Ne.symm hn]
    rw [behind_cons, ih, ht]
    simp [or_assoc]

end Scope

theorem Task.knownAll_iff {S : Scope} {ts : List Task} :
    KnownAll S ts ↔ ∀ before t after, ts = before ++ t :: after → t.Known (S.behind before) := by
  constructor
  · rintro h before t after rfl
    exact (knownAll_append.mp h).2.1
  · induction ts generalizing S with
    | nil => exact fun _ => trivial
    | cons t ts ih =>
      intro h
      exact ⟨h [] t ts rfl, ih fun before u after e => h (t :: before) u after (by rw [e]; rfl)⟩

theorem Program.knownAll_iff (p : Program) : Task.KnownAll .empty p.tasks ↔
    (∀ before t after e n, p.tasks = before ++ t :: after → t.value? = some e → e.mentions n = true →
      ∃ u ∈ before ++ [t], u.name? = some n) ∧
    ∀ t ∈ p.tasks, ∀ e, t.value? = some e → e.operable = true := by
  have hn : ∀ {before : List Task} {t : Task} {n : Bytes}, (t.scope (Scope.empty.behind before)).names n ≠ none ↔
      ∃ u ∈ before ++ [t], u.name? = some n := by
    intro before t n
    rw [← Scope.behind_nil (t.scope _), ← Scope.behind_cons, ← Scope.behind_append, Scope.names_behind]
    simp [Scope.empty]
  rw [Task.knownAll_iff]
  constructor
  · intro h
    constructor
    · intro before t after e n ht he hm
      exact hn.mp ((h before t after ht e he).names n hm)
    · intro t ht e he
      obtain ⟨before, after, ht⟩ := List.append_of_mem ht
      exact (h before t after ht e he).operators
  · rintro ⟨hd, ho⟩ before t after ht e he
    refine ⟨fun n hm => hn.mpr (hd before t after e n ht he hm), ho t ?_ e he⟩
    simp [ht]

theorem Compiler.compile_fresh (p : Program) : (Compiler.compile {} p).1 = RegCode.compile p := rfl

theorem compile_succeeds_iff_compilable (p : Program) (hp : p.whole = true) :
    (∃ c, (Compiler.compile {} p).1.result = .ok c) ↔ p.Compilable := by
  rw [Compiler.compile_fresh, compile_succeeds_iff, p.firstBad?_eq_none_iff]
  constructor
  · rintro ⟨hi, F, hF⟩
    obtain ⟨hd, ho⟩ := p.knownAll_iff.mp hF.known
    have hpool := stmts_pooled hF
    refine ⟨hi, hd, ho, ?_, ?_, fun i j => hF.reachable⟩
    · exact hF.peak_eq ▸ hpool.peak
    · have := hpool.size (Nat.zero_le _)
      rw [hF.load_eq, Nat.zero_add] at this
      exact this
  · intro h
    refine ⟨h.intact, Stmt.exists_codeAll p.body 0 hp h.intact ⟨?_, h.registers, ?_⟩ h.jumps⟩
    · exact p.knownAll_iff.mpr ⟨h.declared, h.operators⟩
    · rw [Nat.zero_add]
      exact h.constants

/-- The program `var a;` with `n` such declarations. -/
def crowded (n : Nat) : Program := ⟨List.replicate n (.var {} [97] {} none), {}⟩

theorem whole_crowded (n : Nat) : (crowded n).whole = true := by
  induction n with
  | zero => rfl
  | succ n ih => exact ih

/-- The conditions hold of a program that compiles, and one declaration more than there are registers is too
many. -/
theorem branching_compilable : branching.whole = true ∧ branching.Compilable ∧
    (crowded 257).whole = true ∧ ¬ ∃ c, (Compiler.compile {} (crowded 257)).1.result = .ok c := by
  have hb : branching.whole = true := by decide
  have hc := branching_compiled
  rw [← Compiler.compile_fresh] at hc
  refine ⟨hb, ?_, whole_crowded _, ?_⟩
  · exact (compile_succeeds_iff_compilable branching hb).mp ⟨branchingChunk, hc⟩
  · rw [compile_succeeds_iff_compilable _ (whole_crowded _)]
    intro h
    have hd : ¬ Task.demand 0 (crowded 257).tasks ≤ 256 := by decide +kernel
    exact hd h.registers

end RegCode
