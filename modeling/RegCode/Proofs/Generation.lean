import RegCode.Proofs.Direct

/-!
# Generation succeeds where there is code

The converse of `stmt_emits`: if the rules give code for a statement, generating it does not fail. Registers come
back in the order of a stack, so no release is out of turn, and every jump that is completed is there to be
completed. What a successful step leaves behind is known from `Emission`; here it only has to be found successful.
-/

namespace RegCode

namespace Gen

/-- The step does not fail, and its answer is `a`. -/
def Succeeds {α : Type} (x : Gen α) (g : Generator) (a : α) : Prop := ∃ g', x g = .ok a g'

section
variable {α β : Type} {g : Generator}

theorem Succeeds.bind {x : Gen α} {f : α → Gen β} {a : α} {b : β} (hx : Succeeds x g a)
    (hf : ∀ g₁, x g = .ok a g₁ → Succeeds (f a) g₁ b) : Succeeds (x >>= f) g b := by
  obtain ⟨g₁, h₁⟩ := hx
  obtain ⟨g₂, h₂⟩ := hf g₁ h₁
  exact ⟨g₂, bind_eq_ok h₁ h₂⟩

theorem succeeds_pure (a : α) : Succeeds (pure a) g a := ⟨g, rfl⟩

theorem succeeds_modify (f : Generator → Generator) : Succeeds (modify f) g () := ⟨f g, rfl⟩

theorem succeeds_get {f : Generator → Gen β} {b : β} (h : Succeeds (f g) g b) : Succeeds (get >>= f) g b := h

theorem alloc_succeeds (h : g.registers.live < maxRegisters) (pos : Position) :
    Succeeds (alloc pos) g (UInt8.ofNat g.registers.live) := by
  apply succeeds_get
  unfold RegisterStack.alloc
  rw [if_pos h]
  exact (succeeds_modify _).bind fun _ _ => succeeds_pure _

theorem free_succeeds {r : Register} (h : r.toNat + 1 = g.registers.live) : Succeeds (free r) g () := by
  apply succeeds_get
  unfold RegisterStack.free
  rw [if_pos h]
  exact succeeds_modify _

theorem resolve_succeeds {n : Bytes} {r : Register} (h : g.env.lookup n = some r) (pos : Position) :
    Succeeds (resolve n pos) g r := by
  apply succeeds_get
  rw [h]
  exact succeeds_pure r

theorem loadConst_succeeds (h : g.chunk.consts.size < maxConsts) (t : Register) (k : Const) (pos : Position) :
    Succeeds (loadConst t k pos) g () := by
  apply succeeds_get
  simp only [if_neg (Nat.not_le.mpr h)]
  exact (succeeds_modify _).bind fun _ _ => succeeds_modify _

theorem land_succeeds {index target : Nat} (hd : Reachable (target - index))
    (hp : g.chunk.patchFault? index = none) (pos : Position) : Succeeds (land index target pos) g () := by
  have hn : ¬ ((target : Int) - index < -32768 ∨ 32767 < (target : Int) - index) := by
    unfold Reachable at hd
    omega
  unfold land
  simp only [if_neg hn]
  apply succeeds_get
  simp only [hp]
  exact succeeds_modify _

theorem keep_succeeds (r t : Register) (e : Expr) : ∃ q, Succeeds (keep r t e) g q := by
  by_cases hk : (r != t && assigns g.env r e) = true
  · refine ⟨t, succeeds_get ?_⟩
    rw [if_pos hk]
    exact (succeeds_modify _).bind fun _ _ => succeeds_pure t
  · refine ⟨r, succeeds_get ?_⟩
    rw [if_neg hk]
    exact succeeds_pure r

end

/-! ## Expressions -/

theorem expr_emitted {S : Scope} {d k : Nat} {e : Expr} {t r r' : Register} {F : Fragment} {g g' : Generator}
    (h : ExprCode S d k e t F r) (hS : Tracks g S) (hd : g.registers.live = d) (hk : g.chunk.consts.size = k)
    (he : expr e t g = .ok r' g') : r' = r ∧ Emits g F d g' := by
  obtain ⟨G, hG, x⟩ := expr_emits e hS he
  rw [hd, hk] at hG
  cases hG.code?_eq.symm.trans h.code?_eq
  exact ⟨rfl, hd ▸ x⟩

theorem zero_succeeds {g : Generator} (hd : g.registers.live < maxRegisters) (hk : g.chunk.consts.size < maxConsts)
    (pos : Position) (o : Op) (t : Register) (x y : Register → Register) :
    Succeeds (do
      let zero ← alloc pos
      loadConst zero (.int 0) pos
      operate o t (x zero) (y zero)
      free zero
      return t : Gen Register) g t := by
  refine (alloc_succeeds hd pos).bind fun g₁ h₁ => ?_
  have e₁ := alloc_emits h₁
  have hk₁ : g₁.chunk.consts.size < maxConsts := by
    rw [e₁.pool]
    exact hk
  refine (loadConst_succeeds hk₁ ..).bind fun g₂ h₂ => ?_
  obtain ⟨-, e₂⟩ := loadConst_emits h₂
  refine (succeeds_modify _).bind fun g₃ h₃ => ?_
  have e₃ := emit_emits (p := .operate o t _ _) h₃
  refine (free_succeeds ?_).bind fun _ _ => succeeds_pure t
  rw [e₃.live, e₂.live, e₁.live, toNat_register hd]

theorem expr_succeeds {S : Scope} {d k : Nat} {e : Expr} {t r : Register} {F : Fragment}
    (h : ExprCode S d k e t F r) : ∀ {g : Generator}, Tracks g S → g.registers.live = d →
    g.chunk.consts.size = k → Succeeds (expr e t) g r := by
  induction h with
  | literal hk =>
    intro g hS hd hg
    exact (loadConst_succeeds (hg ▸ hk) ..).bind fun _ _ => succeeds_pure _
  | name hc =>
    intro g hS hd hg
    refine resolve_succeeds ?_ _
    rw [hS, Scope.register?, hc]
    rfl
  | group _ ih => exact ih
  | folded hf hk =>
    intro g hS hd hg
    unfold expr
    simp only [hf]
    exact (loadConst_succeeds (hg ▸ hk) ..).bind fun _ _ => succeeds_pure _
  | @binary d k p op o left right t F a G b hf ho hF hlt hG ihF ihG =>
    intro g hS hd hg
    unfold expr
    simp only [hf, ho]
    refine (ihF hS hd hg).bind fun g₁ h₁ => ?_
    -- what was emitted tells how many registers are in use and how large the pool is
    obtain ⟨-, e₁⟩ := expr_emitted hF hS hd hg h₁
    have hS₁ := hS.of_env e₁.env
    obtain ⟨q, hq⟩ := keep_succeeds (g := g₁) a t right
    refine hq.bind fun g₂ h₂ => ?_
    obtain ⟨rfl, e₂⟩ := keep_emits hS₁ h₂
    have hS₂ := hS₁.of_env e₂.env
    have hd₂ : g₂.registers.live = d := e₂.live.trans e₁.live
    refine (alloc_succeeds (hd₂ ▸ hlt) p.pos).bind fun g₃ h₃ => ?_
    have e₃ := alloc_emits h₃
    have hd₃ : g₃.registers.live = d + 1 := by rw [e₃.live, hd₂]
    have hk₃ : g₃.chunk.consts.size = k + F.consts.length := by
      rw [e₃.pool, e₂.pool, e₁.pool, Scope.consts_kept, hg]
      rfl
    rw [hd₂]
    refine (ihG (hS₂.of_env e₃.env) hd₃ hk₃).bind fun g₄ h₄ => ?_
    obtain ⟨-, e₄⟩ := expr_emitted hG (hS₂.of_env e₃.env) hd₃ hk₃ h₄
    refine (succeeds_modify _).bind fun g₅ h₅ => ?_
    have e₅ := emit_emits (p := .operate o t _ b) h₅
    refine (free_succeeds ?_).bind fun _ _ => succeeds_pure t
    rw [e₅.live, e₄.live, toNat_register hlt]
  | negated hn hk =>
    intro g hS hd hg
    unfold expr
    simp only [hn]
    exact (loadConst_succeeds (hg ▸ hk) ..).bind fun _ _ => succeeds_pure _
  | @minus d k p e t F a hn hF hlt hk ih =>
    intro g hS hd hg
    unfold expr
    simp only [hn]
    refine (ih hS hd hg).bind fun g₁ h₁ => ?_
    obtain ⟨-, e₁⟩ := expr_emitted hF hS hd hg h₁
    exact zero_succeeds (e₁.live ▸ hlt) (by rw [e₁.pool, hg]; exact hk) p.pos .sub t (fun z => z) fun _ => a
  | @bang d k p e t F a hF hlt hk ih =>
    intro g hS hd hg
    refine (ih hS hd hg).bind fun g₁ h₁ => ?_
    obtain ⟨-, e₁⟩ := expr_emitted hF hS hd hg h₁
    exact zero_succeeds (e₁.live ▸ hlt) (by rw [e₁.pool, hg]; exact hk) p.pos (.compare .eq) t
      (fun _ => a) fun z => z
  | @assign d k p n c e t F a hc hF ih =>
    intro g hS hd hg
    have hr : g.env.lookup n = some (UInt8.ofNat c) := by
      rw [hS, Scope.register?, hc]
      rfl
    refine (resolve_succeeds hr p.pos).bind fun g₁ h₁ => ?_
    obtain ⟨-, rfl⟩ := resolve_ok h₁
    refine (ih hS hd hg).bind fun g₂ h₂ => ?_
    by_cases ha : a = UInt8.ofNat c
    · simp only [ha, bne_self_eq_false, Bool.false_eq_true, ite_false]
      exact succeeds_pure _
    · simp only [bne_iff_ne.mpr ha, ite_true]
      exact (succeeds_modify _).bind fun _ _ => succeeds_pure _

/-! ## Statements -/

theorem stmt_emitted {S : Scope} {k : Nat} {s : Stmt} {F : Fragment} {g g' : Generator} (h : StmtCode S k s F)
    (hS : Stands g S) (hk : g.chunk.consts.size = k) (hs : stmt s g = .ok () g') :
    Extends g F g' ∧ Stands g' (S.after s) := by
  obtain ⟨G, hG, x⟩ := stmt_emits s hS hs
  rw [hk] at hG
  cases hG.code?_eq.symm.trans h.code?_eq
  exact x

section
variable {S : Scope} {k : Nat} {e : Expr} {F : Fragment} {r : Register} {g : Generator}

theorem entered_succeeds {α : Type} {f : Gen α} {a : α} (pos : Position) (hS : Stands g S)
    (hk : g.chunk.consts.size = k)
    (hf : ∀ g₀, Stands g₀ S → g₀.chunk.consts.size = k → Succeeds f g₀ a) :
    Succeeds (enter pos >>= fun _ => f) g a := by
  refine (succeeds_modify _).bind fun g₀ h₀ => ?_
  have e₀ := enter_emits h₀
  exact hf g₀ (hS.of_emits e₀) (by rw [e₀.pool]; exact hk)

theorem scratch_emitted {pos : Position} {t r' : Register} {g₁ g' : Generator} (h : NextCode S S.cells k e F r)
    (hS : Stands g S) (hk : g.chunk.consts.size = k) (h₁ : alloc pos g = .ok t g₁) (h₂ : expr e t g₁ = .ok r' g') :
    r' = r ∧ Emits g F (S.cells + 1) g' := by
  obtain ⟨G, hG, x⟩ := scratch_emits hS h₁ h₂
  rw [hk] at hG
  cases hG.code?_eq.symm.trans h.code?_eq
  exact ⟨rfl, x⟩

/-- A value in the next register, and what is done with it. -/
theorem scratch_succeeds {α : Type} {f : Register → Register → Gen α} {a : α} (pos : Position)
    (h : NextCode S S.cells k e F r) (hS : Stands g S) (hk : g.chunk.consts.size = k)
    (hf : ∀ g', Emits g F (S.cells + 1) g' → Succeeds (f (UInt8.ofNat S.cells) r) g' a) :
    Succeeds (alloc pos >>= fun t => expr e t >>= f t) g a := by
  obtain ⟨hlt, G, hG, -⟩ := id h
  refine (alloc_succeeds (hS.live ▸ hlt) pos).bind fun g₁ h₁ => ?_
  have e₁ := alloc_emits h₁
  have hd₁ : g₁.registers.live = S.cells + 1 := by rw [e₁.live, hS.live]
  have hk₁ : g₁.chunk.consts.size = k := by rw [e₁.pool]; exact hk
  have hx := expr_succeeds hG (hS.names.of_env e₁.env) hd₁ hk₁
  rw [hS.live] at h₁ ⊢
  refine hx.bind fun g₂ h₂ => ?_
  obtain ⟨-, e₂⟩ := scratch_emitted h hS hk h₁ h₂
  exact hf g₂ e₂

theorem release_succeeds (h : NextCode S S.cells k e F r) (hl : g.registers.live = S.cells + 1) :
    Succeeds (free (UInt8.ofNat S.cells)) g () := by
  apply free_succeeds
  rw [hl, toNat_register h.1]

theorem jump_succeeds (op : Op) (a : Register) : Succeeds (jump op a) g g.chunk.code.size := ⟨_, rfl⟩

theorem condition_succeeds (pos : Position) (h : NextCode S S.cells k e F r) (hS : Stands g S)
    (hk : g.chunk.consts.size = k) : Succeeds (condition e pos) g (g.chunk.code.size + F.code.length) := by
  refine scratch_succeeds pos h hS hk fun g' x => ?_
  rw [← x.size]
  refine (jump_succeeds _ _).bind fun g₁ h₁ => ?_
  obtain ⟨-, e₁⟩ := jump_emits h₁
  exact (release_succeeds h (e₁.live.trans x.live)).bind fun _ _ => succeeds_pure _

theorem condition_emitted {pos : Position} {exit : Nat} {g' : Generator} (h : NextCode S S.cells k e F r)
    (hS : Stands g S) (hk : g.chunk.consts.size = k) (hc : condition e pos g = .ok exit g') :
    Emits g (F ++ .one ⟨.asbx Op.jmpIfNot.code r 0, none⟩) g.registers.live g' := by
  obtain ⟨G, r', hG, -, x⟩ := condition_emits hS hc
  rw [hk] at hG
  cases hG.code?_eq.symm.trans h.code?_eq
  exact x

/-- A condition, the statement behind it, and what is done with the jump between them. -/
theorem guarded_succeeds {yes : Stmt} {Y : Fragment} {f : Nat → Gen Unit} (pos : Position)
    (hF : NextCode S S.cells k e F r) (hY : StmtCode S (k + F.consts.length) yes Y)
    (hyes : ∀ {g₁ : Generator}, Stands g₁ S → g₁.chunk.consts.size = k + F.consts.length →
      Succeeds (stmt yes) g₁ ()) (hS : Stands g S) (hk : g.chunk.consts.size = k)
    (hf : ∀ g', Extends g (F ++ .one ⟨.asbx Op.jmpIfNot.code r 0, none⟩ ++ Y) g' → Stands g' (S.after yes) →
      Succeeds (f (g.chunk.code.size + F.code.length)) g' ()) :
    Succeeds (condition e pos >>= fun exit => stmt yes >>= fun _ => f exit) g () := by
  refine (condition_succeeds pos hF hS hk).bind fun g₁ h₁ => ?_
  have e₁ := condition_emitted hF hS hk h₁
  have hk₁ : g₁.chunk.consts.size = k + F.consts.length := by
    rw [e₁.pool, hk]
    simp
  refine (hyes (hS.of_emits e₁) hk₁).bind fun g₂ h₂ => ?_
  obtain ⟨x₂, hS₂⟩ := stmt_emitted hY (hS.of_emits e₁) hk₁ h₂
  exact hf g₂ (e₁.toExtends.trans x₂) hS₂

theorem patchFault?_placeholder {Y : Fragment} {P : Piece} {op : Op} {a : UInt8} {d : Int16} {g₁ : Generator}
    {index : Nat} (hx : Extends g (F ++ .one P ++ Y) g₁) (hP : P.instruction = .asbx op.code a d)
    (hop : op.isJump = true) (hi : index = g.chunk.code.size + F.code.length) :
    g₁.chunk.patchFault? index = none := by
  have hcode : g₁.chunk.code[index]? = some (.asbx op.code a d) := by
    rw [← Array.getElem?_toList, hx.code, hi]
    simp [Fragment.one, hP]
  simp [Chunk.patchFault?, hcode, Instruction.isJump, hop]

end

mutual

theorem stmt_succeeds : ∀ {S : Scope} {k : Nat} {s : Stmt} {X : Fragment}, StmtCode S k s X →
    ∀ {g : Generator}, Stands g S → g.chunk.consts.size = k → Succeeds (stmt s) g ()
  | S, k, _, _, @StmtCode.print _ _ p e F r hF, g, hS, hk => by
    refine entered_succeeds p.pos hS hk fun g₀ hS₀ hk₀ => ?_
    refine scratch_succeeds p.pos hF hS₀ hk₀ fun g' x => (succeeds_modify _).bind fun g₁ h₁ => ?_
    have e₁ := emit_emits (p := .print r) h₁
    exact release_succeeds hF (e₁.live.trans x.live)
  | S, k, _, _, @StmtCode.declare _ _ p n q hlt, g, hS, hk => by
    refine entered_succeeds p.pos hS hk fun g₀ hS₀ hk₀ => ?_
    refine (alloc_succeeds (hS₀.live ▸ hlt) q).bind fun _ _ => ?_
    exact (succeeds_modify _).bind fun _ _ => succeeds_pure ()
  | S, k, _, _, @StmtCode.init _ _ p n q e F r hF, g, hS, hk => by
    obtain ⟨hlt, G, hG, -⟩ := id hF
    refine entered_succeeds p.pos hS hk fun g₀ hS₀ hk₀ => ?_
    refine (alloc_succeeds (hS₀.live ▸ hlt) q).bind fun g₁ h₁ => ?_
    have e₁ := alloc_emits h₁
    refine (succeeds_modify _).bind fun g₂ h₂ => ?_
    obtain ⟨-, hS₂, hc, -⟩ := declare_stands hS₀ h₁ h₂
    have hk₂ : g₂.chunk.consts.size = k := by
      rw [hc, e₁.pool]
      exact hk₀
    rw [hS₀.live]
    refine (expr_succeeds hG hS₂.names hS₂.live hk₂).bind fun g₃ h₃ => ?_
    by_cases hr : r = UInt8.ofNat S.cells
    · simp only [hr, bne_self_eq_false, Bool.false_eq_true, ite_false]
      exact succeeds_pure ()
    · simp only [bne_iff_ne.mpr hr, ite_true]
      exact succeeds_modify _
  | S, k, _, _, @StmtCode.expr _ _ p e F r hF, g, hS, hk => by
    refine entered_succeeds p.pos hS hk fun g₀ hS₀ hk₀ => ?_
    exact scratch_succeeds p.pos hF hS₀ hk₀ fun g' x => release_succeeds hF x.live
  | S, k, _, _, @StmtCode.block _ _ p body F hB, g, hS, hk => by
    exact entered_succeeds p.pos hS hk fun g₀ hS₀ hk₀ => stmts_succeeds hB hS₀ hk₀
  | S, k, _, _, @StmtCode.ifThen _ _ p e yes F r Y hF hY hd, g, hS, hk => by
    refine entered_succeeds p.pos hS hk fun g₀ hS₀ hk₀ => ?_
    refine guarded_succeeds p.pos hF hY (stmt_succeeds hY) hS₀ hk₀ fun g₂ x₁₂ _ => ?_
    exact succeeds_get (land_succeeds (x₁₂.distance ▸ hd) (patchFault?_placeholder x₁₂ rfl rfl rfl) _)
  | S, k, _, _, @StmtCode.ifElse _ _ p e yes no F r Y N hF hY hd hN hd', g, hS, hk => by
    refine entered_succeeds p.pos hS hk fun g₀ hS₀ hk₀ => ?_
    refine guarded_succeeds p.pos hF hY (stmt_succeeds hY) hS₀ hk₀ fun g₂ x₁₂ hS₂ => ?_
    refine (jump_succeeds _ _).bind fun g₃ h₃ => ?_
    obtain ⟨-, e₃⟩ := jump_emits h₃
    have x₁₃ := x₁₂.trans e₃.toExtends
    -- the jump over the first branch ends behind the jump over the second
    rw [Fragment.append_assoc (F ++ _)] at x₁₃
    have hn := x₁₃.distance_past
    apply succeeds_get
    refine (land_succeeds (hn ▸ hd) (patchFault?_placeholder x₁₃ rfl rfl rfl) _).bind fun g₄ h₄ => ?_
    obtain ⟨-, x₄, hst₄⟩ := land_extends (Q := .jumpUnless r (Y.code.length + 2)) x₁₃ rfl rfl rfl hn h₄
    have hk₄ : g₄.chunk.consts.size = k + F.consts.length + Y.consts.length := by
      rw [x₄.pool, hk₀]
      simp [Nat.add_assoc]
    refine (stmt_succeeds hN (hst₄ _ (hS₂.of_emits e₃)) hk₄).bind fun g₅ h₅ => ?_
    obtain ⟨x₅, -⟩ := stmt_emitted hN (hst₄ _ (hS₂.of_emits e₃)) hk₄ h₅
    have x₄₅ := x₄.trans x₅
    rw [← Fragment.append_assoc (F ++ _)] at x₄₅
    have hi : g₂.chunk.code.size =
        g₀.chunk.code.size + (F ++ Fragment.one (.jumpUnless r (Y.code.length + 2)) ++ Y).code.length := by
      rw [x₁₂.size]
      simp only [Fragment.size_append, Fragment.size_one]
    have hm := x₄₅.distance
    rw [← hi] at hm
    exact succeeds_get (land_succeeds (hm ▸ hd') (patchFault?_placeholder x₄₅ rfl rfl hi) _)
  | S, k, _, _, @StmtCode.while _ _ p e body F r B hF hB hd hd', g, hS, hk => by
    refine entered_succeeds p.pos hS hk fun g₀ hS₀ hk₀ => succeeds_get ?_
    refine guarded_succeeds p.pos hF hB (stmt_succeeds hB) hS₀ hk₀ fun g₂ x₁₂ _ => ?_
    refine (jump_succeeds _ _).bind fun g₃ h₃ => ?_
    obtain ⟨-, e₃⟩ := jump_emits h₃
    have x₁₃ := x₁₂.trans e₃.toExtends
    -- the jump back is completed first: its target is known already
    rw [← Fragment.append_empty (_ ++ Fragment.one _)] at x₁₃
    have hm : (g₀.chunk.code.size : Int) - g₂.chunk.code.size = -(F.code.length + 1 + B.code.length) := by
      rw [x₁₂.size]
      simp only [Fragment.size_append, Fragment.size_one]
      omega
    refine (land_succeeds (hm ▸ hd') (patchFault?_placeholder x₁₃ rfl rfl x₁₂.size) _).bind fun g₄ h₄ => ?_
    obtain ⟨-, x₄, -⟩ :=
      land_extends (Q := .jump (-(F.code.length + 1 + B.code.length))) x₁₃ rfl rfl x₁₂.size hm h₄
    rw [Fragment.append_empty, Fragment.append_assoc (F ++ _)] at x₄
    exact succeeds_get (land_succeeds (x₄.distance_past ▸ hd) (patchFault?_placeholder x₄ rfl rfl rfl) _)
  | _, _, _, _, @StmtCode.ret _ _ p e, g, hS, hk => by
    exact entered_succeeds p.pos hS hk fun g₀ _ _ => succeeds_modify _
  | _, _, _, _, @StmtCode.func _ _ p n q ps body, g, hS, hk => by
    exact entered_succeeds p.pos hS hk fun g₀ _ _ => succeeds_modify _

theorem stmts_succeeds : ∀ {S : Scope} {k : Nat} {l : List Stmt} {X : Fragment}, StmtsCode S k l X →
    ∀ {g : Generator}, Stands g S → g.chunk.consts.size = k → Succeeds (stmts l) g ()
  | _, _, _, _, .nil, g, hS, hk => succeeds_pure ()
  | _, _, _, _, .cons hF hG, g, hS, hk => by
    refine (stmt_succeeds hF hS hk).bind fun g₁ h₁ => ?_
    obtain ⟨x₁, hS₁⟩ := stmt_emitted hF hS hk h₁
    exact stmts_succeeds hG hS₁ (by rw [x₁.pool, hk])

end

end Gen

theorem compile_succeeds_iff {p : Program} : (∃ c, (compile p).result = .ok c) ↔
    p.firstBad? = none ∧ ∃ F, StmtsCode .empty 0 p.body F := by
  constructor
  · rintro ⟨c, hc⟩
    obtain ⟨hb, -⟩ := compile_ok_iff.mp hc
    obtain ⟨F, hF⟩ := compile_compiled hc
    exact ⟨hb, F, hF.body⟩
  · rintro ⟨hb, F, hF⟩
    obtain ⟨g, hg⟩ := Gen.stmts_succeeds hF stands_empty rfl
    exact ⟨g.finished, compile_ok_iff.mpr ⟨hb, g, hg, rfl⟩⟩

end RegCode
