import RegCode.Proofs.Compilable

/-!
# How compiling fails

A program without gaps that does not compile has an error in it: registers are always given back in turn, and a jump
is always there when it is completed. What holds behind a step that succeeds is known from the code it has emitted.
-/

namespace RegCode

namespace Gen

section
variable {α β : Type} {g : Generator}

/-- Where the step fails, it is with an error in the program. -/
def Blames (x : Gen α) (g : Generator) : Prop := ∀ f g', x g = .error f g' → ∃ e, f = .error e

theorem Blames.bind {x : Gen α} {f : α → Gen β} (hx : Blames x g) (hf : ∀ a g₁, x g = .ok a g₁ → Blames (f a) g₁) :
    Blames (x >>= f) g := by
  intro err g' h
  change EStateM.bind x f g = .error err g' at h
  unfold EStateM.bind at h
  cases hr : x g with
  | ok a g₁ =>
    rw [hr] at h
    exact hf a g₁ hr err g' h
  | error err' g₁ =>
    rw [hr] at h
    cases h
    exact hx err g' hr

theorem blames_pure (a : α) : Blames (pure a) g := by
  intro f g' h
  cases h

theorem blames_modify (f : Generator → Generator) : Blames (modify f) g := by
  intro err g' h
  cases h

theorem blames_fail (pos : Position) (f : CompileFault) : Blames (fail pos f : Gen α) g := by
  intro err g' h
  cases h
  exact ⟨_, rfl⟩

theorem blames_get {f : Generator → Gen β} (h : Blames (f g) g) : Blames (get >>= f) g := h

theorem alloc_blames (pos : Position) : Blames (alloc pos) g := by
  apply blames_get
  cases g.registers.alloc with
  | some p => exact (blames_modify _).bind fun _ _ _ => blames_pure _
  | none => exact blames_fail _ _

theorem free_blames {r : Register} (h : r.toNat + 1 = g.registers.live) : Blames (free r) g := by
  apply blames_get
  rw [RegisterStack.free, if_pos h]
  exact blames_modify _

theorem resolve_blames (n : Bytes) (pos : Position) : Blames (resolve n pos) g := by
  apply blames_get
  cases g.env.lookup n with
  | some r => exact blames_pure r
  | none => exact blames_fail _ _

theorem loadConst_blames (t : Register) (k : Const) (pos : Position) : Blames (loadConst t k pos) g := by
  apply blames_get
  by_cases hk : maxConsts ≤ g.chunk.consts.size
  · simp only [if_pos hk]
    exact (blames_fail _ _).bind fun _ _ h => by cases h
  · simp only [if_neg hk]
    exact (blames_pure _).bind fun _ _ _ => (blames_modify _).bind fun _ _ _ => blames_modify _

theorem land_blames {index : Nat} (h : g.chunk.patchFault? index = none) (target : Nat) (pos : Position) :
    Blames (land index target pos) g := by
  unfold land
  by_cases hd : (target : Int) - index < -32768 ∨ 32767 < (target : Int) - index
  · simp only [if_pos hd]
    exact (blames_fail _ _).bind fun _ _ h => by cases h
  · simp only [if_neg hd]
    apply blames_get
    simp only [h]
    exact blames_modify _

theorem keep_blames (r t : Register) (e : Expr) : Blames (keep r t e) g := by
  obtain ⟨q, g', h⟩ := keep_succeeds (g := g) r t e
  intro f g₁ h₁
  cases h.symm.trans h₁

/-! ## Expressions -/

theorem zero_blames (pos : Position) (o : Op) (t : Register) (x y : Register → Register) :
    Blames (do
      let zero ← alloc pos
      loadConst zero (.int 0) pos
      operate o t (x zero) (y zero)
      free zero
      return t : Gen Register) g := by
  refine (alloc_blames pos).bind fun zero g₁ h₁ => ?_
  refine (loadConst_blames _ _ _).bind fun _ g₂ h₂ => (blames_modify _).bind fun _ g₃ h₃ => ?_
  refine (free_blames ?_).bind fun _ _ _ => blames_pure t
  obtain ⟨hd, rfl, -⟩ := alloc_ok h₁
  obtain ⟨-, e₂⟩ := loadConst_emits h₂
  have e₃ := emit_emits (p := .operate o t _ _) h₃
  rw [e₃.live, e₂.live, (alloc_emits h₁).live, toNat_register hd]

theorem expr_blames (e : Expr) : ∀ {S : Scope} {t : Register} {g : Generator}, e.whole = true → Tracks g S →
    Blames (expr e t) g := by
  induction e with
  | literal p v => exact fun _ _ => (loadConst_blames _ _ _).bind fun _ _ _ => blames_pure _
  | name p n => exact fun _ _ => resolve_blames n p.pos
  | group p e ih => exact ih
  | binary p op left right ihl ihr =>
    intro S t g hw hS
    simp only [Expr.whole, Bool.and_eq_true] at hw
    unfold expr
    cases Expr.fold? op left right with
    | some x => exact (loadConst_blames _ _ _).bind fun _ _ _ => blames_pure _
    | none =>
      cases op.operation? with
      | none => exact (blames_fail _ _).bind fun _ _ h => by cases h
      | some o =>
        refine (ihl hw.1 hS).bind fun a g₁ h₁ => ?_
        obtain ⟨F, -, e₁⟩ := expr_emits left hS h₁
        have hS₁ := hS.of_env e₁.env
        refine (keep_blames _ _ _).bind fun q g₂ h₂ => ?_
        obtain ⟨-, e₂⟩ := keep_emits hS₁ h₂
        refine (alloc_blames _).bind fun scratch g₃ h₃ => ?_
        obtain ⟨hd, rfl, -⟩ := alloc_ok h₃
        have e₃ := alloc_emits h₃
        have hS₃ := (hS₁.of_env e₂.env).of_env e₃.env
        refine (ihr hw.2 hS₃).bind fun b g₄ h₄ => ?_
        obtain ⟨G, -, e₄⟩ := expr_emits right hS₃ h₄
        refine (blames_modify _).bind fun _ g₅ h₅ => (free_blames ?_).bind fun _ _ _ => blames_pure t
        have e₅ := emit_emits (p := .operate o t q b) h₅
        rw [e₅.live, e₄.live, e₃.live, toNat_register hd]
  | unary p op e ih =>
    intro S t g hw hS
    unfold expr
    split
    · cases e.negate? with
      | some c => exact (loadConst_blames _ _ _).bind fun _ _ _ => blames_pure _
      | none => exact (ih hw hS).bind fun a _ _ => zero_blames p.pos .sub t (fun z => z) fun _ => a
    · exact (ih hw hS).bind fun a _ _ => zero_blames p.pos _ t (fun _ => a) fun z => z
    · exact (blames_fail _ _).bind fun _ _ h => by cases h
  | assign p n e ih =>
    intro S t g hw hS
    refine (resolve_blames n p.pos).bind fun r g₁ h₁ => ?_
    obtain ⟨-, rfl⟩ := resolve_ok h₁
    refine (ih hw hS).bind fun v g₂ _ => ?_
    by_cases hv : (v != r) = true
    · simp only [if_pos hv]
      exact (blames_modify _).bind fun _ _ _ => blames_pure r
    · simp only [if_neg hv]
      exact blames_pure r
  | hole => exact fun hw => absurd hw Bool.false_ne_true

/-! ## Statements -/

theorem entered_blames {f : Gen α} {S : Scope} (pos : Position) (hS : Stands g S)
    (hf : ∀ g₀, Stands g₀ S → Blames f g₀) : Blames (enter pos >>= fun _ => f) g :=
  (blames_modify _).bind fun _ g₀ h₀ => hf g₀ (hS.of_emits (enter_emits h₀))

/-- A value in the next register, and what is done with it before the register is given back. -/
theorem scratch_blames {f : Register → Register → Gen α} {e : Expr} {S : Scope} (pos : Position)
    (hw : e.whole = true) (hS : Stands g S)
    (hf : ∀ r g', g'.registers.live = S.cells + 1 → S.cells < maxRegisters →
    Blames (f (UInt8.ofNat S.cells) r) g') :
    Blames (alloc pos >>= fun t => expr e t >>= f t) g := by
  refine (alloc_blames pos).bind fun t g₁ h₁ => ?_
  have e₁ := alloc_emits h₁
  refine (expr_blames e hw (hS.names.of_env e₁.env)).bind fun r g₂ h₂ => ?_
  obtain ⟨F, hF, e₂⟩ := scratch_emits hS h₁ h₂
  obtain ⟨-, rfl, -⟩ := alloc_ok h₁
  rw [hS.live]
  exact hf r g₂ e₂.live hF.1

theorem release_blames {cells : Nat} (hl : g.registers.live = cells + 1) (hd : cells < maxRegisters) :
    Blames (free (UInt8.ofNat cells)) g := by
  apply free_blames
  rw [hl, toNat_register hd]

theorem condition_blames {e : Expr} {S : Scope} (pos : Position) (hw : e.whole = true) (hS : Stands g S) :
    Blames (condition e pos) g := by
  refine scratch_blames pos hw hS fun r g' hl hd => ?_
  refine Blames.bind (x := jump .jmpIfNot r) (fun _ _ h => by cases h) fun _ g₁ h₁ => ?_
  obtain ⟨-, e₁⟩ := jump_emits h₁
  exact (release_blames (e₁.live.trans hl) hd).bind fun _ _ _ => blames_pure _

/-- A condition, the statement behind it, and what is done with the jump between them. -/
theorem guarded_blames {e : Expr} {yes : Stmt} {f : Nat → Gen Unit} {S : Scope} (pos : Position)
    (hw : e.whole = true) (hS : Stands g S) (hyes : ∀ {g₁ : Generator}, Stands g₁ S → Blames (stmt yes) g₁)
    (hf : ∀ F r Y g', Extends g (F ++ .one ⟨.asbx Op.jmpIfNot.code r 0, none⟩ ++ Y) g' → Stands g' (S.after yes) →
      Blames (f (g.chunk.code.size + F.code.length)) g') :
    Blames (condition e pos >>= fun exit => stmt yes >>= fun _ => f exit) g := by
  refine (condition_blames pos hw hS).bind fun exit g₁ h₁ => ?_
  obtain ⟨F, r, -, rfl, e₁⟩ := condition_emits hS h₁
  refine (hyes (hS.of_emits e₁)).bind fun _ g₂ h₂ => ?_
  obtain ⟨Y, -, x₂, hS₂⟩ := stmt_emits yes (hS.of_emits e₁) h₂
  exact hf F r Y g₂ (e₁.toExtends.trans x₂) hS₂

end

mutual

theorem stmt_blames : ∀ (s : Stmt) {S : Scope} {g : Generator}, s.whole = true → Stands g S → Blames (stmt s) g
  | .print p e, S, g, hw, hS => by
    refine entered_blames p.pos hS fun g₀ hS₀ => scratch_blames p.pos hw hS₀ fun r g' hl hd => ?_
    refine (blames_modify _).bind fun _ g₁ h₁ => ?_
    have e₁ := emit_emits (p := .print r) h₁
    exact release_blames (e₁.live.trans hl) hd
  | .var p n q none, S, g, hw, hS => by
    refine entered_blames p.pos hS fun g₀ hS₀ => (alloc_blames q).bind fun _ _ _ => ?_
    exact (blames_modify _).bind fun _ _ _ => blames_pure ()
  | .var p n q (some e), S, g, hw, hS => by
    refine entered_blames p.pos hS fun g₀ hS₀ => (alloc_blames q).bind fun t g₁ h₁ => ?_
    refine (blames_modify _).bind fun _ g₂ h₂ => ?_
    obtain ⟨-, hS₂, -, -⟩ := declare_stands hS₀ h₁ h₂
    refine (expr_blames e hw hS₂.names).bind fun v g₃ _ => ?_
    by_cases hv : (v != t) = true
    · simp only [if_pos hv]
      exact blames_modify _
    · simp only [if_neg hv]
      exact blames_pure ()
  | .expr p e, S, g, hw, hS => by
    refine entered_blames p.pos hS fun g₀ hS₀ => scratch_blames p.pos hw hS₀ fun r g' hl hd => ?_
    exact release_blames hl hd
  | .block p body, S, g, hw, hS => entered_blames p.pos hS fun _ hS₀ => stmts_blames body hw hS₀
  | .ifThen p e yes, S, g, hw, hS => by
    simp only [Stmt.whole, Bool.and_eq_true] at hw
    refine entered_blames p.pos hS fun g₀ hS₀ => ?_
    refine guarded_blames p.pos hw.1 hS₀ (stmt_blames yes hw.2) fun F r Y g₂ x₁₂ _ => blames_get ?_
    exact land_blames (patchFault?_placeholder x₁₂ rfl rfl rfl) _ _
  | .ifElse p e yes no, S, g, hw, hS => by
    simp only [Stmt.whole, Bool.and_eq_true] at hw
    refine entered_blames p.pos hS fun g₀ hS₀ => ?_
    refine guarded_blames p.pos hw.1.1 hS₀ (stmt_blames yes hw.1.2) fun F r Y g₂ x₁₂ hS₂ => ?_
    refine Blames.bind (x := jump .jmp 0) (fun _ _ h => by cases h) fun done g₃ h₃ => blames_get ?_
    obtain ⟨rfl, e₃⟩ := jump_emits h₃
    have x₁₃ := x₁₂.trans e₃.toExtends
    rw [Fragment.append_assoc (F ++ _)] at x₁₃
    refine (land_blames (patchFault?_placeholder x₁₃ rfl rfl rfl) _ _).bind fun _ g₄ h₄ => ?_
    obtain ⟨-, x₄, hst₄⟩ := land_extends (Q := .jumpUnless r _) x₁₃ rfl rfl rfl rfl h₄
    have hS₄ := hst₄ _ (hS₂.of_emits e₃)
    refine (stmt_blames no hw.2 hS₄).bind fun _ g₅ h₅ => blames_get ?_
    obtain ⟨N, -, x₅, -⟩ := stmt_emits no hS₄ h₅
    have x₄₅ := x₄.trans x₅
    rw [← Fragment.append_assoc (F ++ _)] at x₄₅
    refine land_blames (patchFault?_placeholder x₄₅ rfl rfl ?_) _ _
    rw [x₁₂.size]
    simp only [Fragment.size_append, Fragment.size_one]
  | .while p e body, S, g, hw, hS => by
    simp only [Stmt.whole, Bool.and_eq_true] at hw
    refine entered_blames p.pos hS fun g₀ hS₀ => blames_get ?_
    refine guarded_blames p.pos hw.1 hS₀ (stmt_blames body hw.2) fun F r B g₂ x₁₂ _ => ?_
    refine Blames.bind (x := jump .jmp 0) (fun _ _ h => by cases h) fun back g₃ h₃ => ?_
    obtain ⟨rfl, e₃⟩ := jump_emits h₃
    have x₁₃ := x₁₂.trans e₃.toExtends
    rw [← Fragment.append_empty (_ ++ Fragment.one _)] at x₁₃
    refine (land_blames (patchFault?_placeholder x₁₃ rfl rfl x₁₂.size) _ _).bind fun _ g₄ h₄ => blames_get ?_
    obtain ⟨-, x₄, -⟩ := land_extends (Q := .jump _) x₁₃ rfl rfl x₁₂.size rfl h₄
    rw [Fragment.append_empty, Fragment.append_assoc (F ++ _)] at x₄
    exact land_blames (patchFault?_placeholder x₄ rfl rfl rfl) _ _
  | .func p n q ps body, S, g, hw, hS => entered_blames p.pos hS fun _ _ => blames_modify _
  | .ret p e, S, g, hw, hS => entered_blames p.pos hS fun _ _ => blames_modify _
  | .bad p m, S, g, hw, hS => entered_blames p.pos hS fun _ _ => blames_fail _ _
  | .hole, S, g, hw, hS => absurd hw Bool.false_ne_true

theorem stmts_blames : ∀ (l : List Stmt) {S : Scope} {g : Generator}, Stmt.wholeAll l = true → Stands g S →
    Blames (stmts l) g
  | [], S, g, hw, hS => blames_pure ()
  | s :: rest, S, g, hw, hS => by
    simp only [Stmt.wholeAll, Bool.and_eq_true] at hw
    refine (stmt_blames s hw.1 hS).bind fun _ g₁ h₁ => ?_
    obtain ⟨F, -, -, hS₁⟩ := stmt_emits s hS h₁
    exact stmts_blames rest hw.2 hS₁

end

end Gen

theorem compile_blames {p : Program} (hp : p.whole = true) {f : CompileFailure}
    (h : (compile p).result = .error f) :
    ∃ e, f = .error e := by
  have hprogram : Gen.Blames (Gen.program p) {} := by
    unfold Gen.program
    cases p.firstBad? with
    | some bad => exact Gen.blames_fail _ _
    | none =>
      refine (Gen.stmts_blames p.body hp stands_empty).bind fun _ g₁ _ => ?_
      refine (Gen.blames_modify _).bind fun _ g₂ _ => (Gen.blames_modify _).bind fun _ g₃ _ => ?_
      exact Gen.blames_get (Gen.blames_modify _)
  unfold compile at h
  cases hr : (Gen.program p).run {} with
  | ok _ g =>
    rw [hr] at h
    cases h
  | error f' g =>
    rw [hr] at h
    cases h
    exact hprogram f g hr

/-! ## Programs of the grammar -/

theorem Expr.whole_of_proper {e : Expr} (h : e.proper = true) : e.whole = true := by
  induction e with
  | literal | name => rfl
  | binary p op left right ihl ihr =>
    simp only [proper, Bool.and_eq_true] at h
    simp only [whole, ihl h.1.2, ihr h.2, Bool.and_self]
  | unary p op e ih =>
    simp only [proper, Bool.and_eq_true] at h
    exact ih h.2
  | group p e ih => exact ih h
  | assign p n e ih => exact ih h
  | hole => exact h

theorem Expr.all_whole_of_proper {value : Option Expr} (h : value.all Expr.proper = true) :
    value.all Expr.whole = true := by
  cases value with
  | none => rfl
  | some e => exact Expr.whole_of_proper h

namespace Stmt

mutual

theorem whole_of_proper : ∀ s : Stmt, s.proper = true → s.whole = true
  | .var .., h => Expr.all_whole_of_proper h
  | .print _ e, h => Expr.whole_of_proper h
  | .expr _ e, h => Expr.whole_of_proper h
  | .block _ body, h => wholeAll_of_proper body h
  | .ifThen _ e yes, h => by
    simp only [proper, Bool.and_eq_true] at h
    simp [whole, e.whole_of_proper h.1.1, whole_of_proper yes h.2]
  | .ifElse _ e yes no, h => by
    simp only [proper, Bool.and_eq_true] at h
    obtain ⟨⟨⟨⟨⟨he, -⟩, hyes⟩, -⟩, -⟩, hno⟩ := h
    simp [whole, e.whole_of_proper he, whole_of_proper yes hyes, whole_of_proper no hno]
  | .while _ e body, h => by
    simp only [proper, Bool.and_eq_true] at h
    simp [whole, e.whole_of_proper h.1.1, whole_of_proper body h.2]
  | .ret .., h => Expr.all_whole_of_proper h
  | .func _ _ _ _ body, h => by
    simp only [proper, Bool.and_eq_true] at h
    exact wholeAll_of_proper body h.2
  | .bad .., h => rfl
  | .hole, h => h

theorem wholeAll_of_proper : ∀ l : List Stmt, properAll l = true → wholeAll l = true
  | [], _ => rfl
  | s :: rest, h => by
    simp only [properAll, Bool.and_eq_true] at h
    simp only [wholeAll, whole_of_proper s h.1, wholeAll_of_proper rest h.2, Bool.and_self]

end

end Stmt

end RegCode
