import RegCode.Proofs.Fragment

/-!
# Generated code

Where code generation succeeds, it has appended the code that the rules of `ExprCode` and `StmtCode` give.
Each step is opened once, by a lemma that says what the state behind it is; the placeholders of jumps are
gone once they have landed.
-/

namespace RegCode

namespace Gen

section
variable {α β : Type} {g g' : Generator}

theorem bind_ok {x : Gen α} {f : α → Gen β} {b : β} (h : (x >>= f) g = .ok b g') :
    ∃ a g₁, x g = .ok a g₁ ∧ f a g₁ = .ok b g' := by
  change EStateM.bind x f g = .ok b g' at h
  unfold EStateM.bind at h
  cases hx : x g with
  | ok a g₁ => rw [hx] at h; exact ⟨a, g₁, rfl, h⟩
  | error e g₁ => rw [hx] at h; cases h

theorem bind_eq_ok {x : Gen α} {f : α → Gen β} {a : α} {b : β} {g₁ : Generator} (hx : x g = .ok a g₁)
    (hf : f a g₁ = .ok b g') : (x >>= f) g = .ok b g' := by
  change EStateM.bind x f g = .ok b g'
  unfold EStateM.bind
  rw [hx]
  exact hf

theorem pure_ok {a b : α} (h : (pure a : Gen α) g = .ok b g') : b = a ∧ g' = g := by
  cases h
  exact ⟨rfl, rfl⟩

theorem alloc_ok {pos : Position} {r : Register} (h : alloc pos g = .ok r g') :
    g.registers.live < maxRegisters ∧ r = UInt8.ofNat g.registers.live ∧
      g' = { g with registers := ⟨g.registers.live + 1, max g.registers.high (g.registers.live + 1)⟩ } := by
  obtain ⟨g₁, g₂, h₁, h⟩ := bind_ok h
  cases h₁
  unfold RegisterStack.alloc at h
  by_cases hl : g.registers.live < maxRegisters
  · rw [if_pos hl] at h
    cases h
    exact ⟨hl, rfl, rfl⟩
  · rw [if_neg hl] at h
    cases h

theorem free_ok {r : Register} (h : free r g = .ok () g') :
    g' = { g with registers := ⟨g.registers.live - 1, g.registers.high⟩ } := by
  obtain ⟨g₁, g₂, h₁, h⟩ := bind_ok h
  cases h₁
  unfold RegisterStack.free at h
  by_cases hl : r.toNat + 1 = g.registers.live
  · rw [if_pos hl] at h
    cases h
    rfl
  · rw [if_neg hl] at h
    cases h

theorem resolve_ok {n : Bytes} {pos : Position} {r : Register} (h : resolve n pos g = .ok r g') :
    g.env.lookup n = some r ∧ g' = g := by
  obtain ⟨g₁, g₂, h₁, h⟩ := bind_ok h
  cases h₁
  cases hl : g.env.lookup n with
  | none => rw [hl] at h; cases h
  | some q => rw [hl] at h; cases h; exact ⟨rfl, rfl⟩

theorem loadConst_ok {t : Register} {k : Const} {pos : Position} (h : loadConst t k pos g = .ok () g') :
    g.chunk.consts.size < maxConsts ∧ emit (.abx Op.loadK.code t (UInt16.ofNat g.chunk.consts.size))
      { g with chunk := g.chunk.addConst (.const k) } = .ok () g' := by
  obtain ⟨g₁, g₂, h₁, h⟩ := bind_ok h
  cases h₁
  by_cases hl : maxConsts ≤ g.chunk.consts.size
  · simp only [if_pos hl] at h
    obtain ⟨_, _, h₁, _⟩ := bind_ok h
    cases h₁
  · simp only [if_neg hl] at h
    obtain ⟨_, _, h₁, h⟩ := bind_ok h
    cases h₁
    exact ⟨by omega, h⟩

theorem land_ok {index target : Nat} {pos : Position} (h : land index target pos g = .ok () g') :
    Reachable (target - index) ∧ g.chunk.patchFault? index = none ∧
      g' = { g with chunk := g.chunk.setSbx index (Int16.ofInt (target - index)) } := by
  unfold land at h
  by_cases hl : (target : Int) - index < -32768 ∨ 32767 < (target : Int) - index
  · simp only [if_pos hl] at h
    obtain ⟨_, _, h₁, _⟩ := bind_ok h
    cases h₁
  · simp only [if_neg hl] at h
    obtain ⟨_, _, h₁, h⟩ := bind_ok h
    cases h₁
    cases hp : g.chunk.patchFault? index with
    | some f => simp only [hp] at h; cases h
    | none =>
      simp only [hp] at h
      cases h
      exact ⟨by unfold Reachable; omega, rfl, rfl⟩

end

end Gen

/-! ## Behind some code -/

@[simp] theorem Chunk.code_write (c : Chunk) (i : Instruction) (line : Int) :
    (c.write i line).code = c.code.push i := by
  unfold Chunk.write
  split <;> rfl

@[simp] theorem Chunk.consts_write (c : Chunk) (i : Instruction) (line : Int) :
    (c.write i line).consts = c.consts := by
  unfold Chunk.write
  split <;> rfl

namespace Fragment

theorem append_empty (F : Fragment) : F ++ ({} : Fragment) = F := by
  obtain ⟨code, consts, sites, peak⟩ := F
  change append _ _ = _
  simp [append]

theorem empty_append (F : Fragment) : ({} : Fragment) ++ F = F := by
  obtain ⟨code, consts, sites, peak⟩ := F
  change append _ _ = _
  simp [append, Site.shift]

theorem append_assoc (F G H : Fragment) : F ++ G ++ H = F ++ (G ++ H) := by
  change append (append F G) H = append F (append G H)
  simp [append, Site.shift, Nat.add_assoc, Nat.max_assoc]

end Fragment

/-- The state `g'` is `g` with a fragment behind its code. -/
structure Extends (g : Generator) (F : Fragment) (g' : Generator) : Prop where
  code : g'.chunk.code.toList = g.chunk.code.toList ++ F.code.map (·.instruction)
  consts : g'.chunk.consts.toList = g.chunk.consts.toList ++ F.consts.map .const
  high : g'.registers.high = max g.registers.high F.peak

/-- Only code was appended: the names are the same, and `live` registers are in use. -/
structure Emits (g : Generator) (F : Fragment) (live : Nat) (g' : Generator) : Prop
    extends Extends g F g' where
  live : g'.registers.live = live
  env : g'.env = g.env

section
variable {g g₁ g' : Generator} {F G : Fragment}

theorem Extends.trans (h : Extends g F g₁) (h' : Extends g₁ G g') : Extends g (F ++ G) g' where
  code := by rw [h'.code, h.code, Fragment.code_append, List.map_append, List.append_assoc]
  consts := by rw [h'.consts, h.consts, Fragment.consts_append, List.map_append, List.append_assoc]
  high := by rw [h'.high, h.high, Fragment.peak_append, Nat.max_assoc]

theorem Extends.size (h : Extends g F g') : g'.chunk.code.size = g.chunk.code.size + F.code.length := by
  have := congrArg List.length h.code
  simpa using this

/-- How far the end of the code is from a placeholder in it. -/
theorem Extends.distance {Y : Fragment} {P : Piece} (hx : Extends g (F ++ .one P ++ Y) g₁) :
    (g₁.chunk.code.size : Int) - (g.chunk.code.size + F.code.length : Nat) = Y.code.length + 1 := by
  rw [hx.size]
  simp only [Fragment.size_append, Fragment.size_one]
  omega

theorem Extends.distance_past {Y : Fragment} {P J : Piece} (hx : Extends g (F ++ .one P ++ (Y ++ .one J)) g₁) :
    (g₁.chunk.code.size : Int) - (g.chunk.code.size + F.code.length : Nat) = Y.code.length + 2 := by
  rw [hx.distance]
  simp only [Fragment.size_append, Fragment.size_one]
  omega

theorem Extends.pool (h : Extends g F g') :
    g'.chunk.consts.size = g.chunk.consts.size + F.consts.length := by
  have := congrArg List.length h.consts
  simpa using this

theorem Emits.trans {m n : Nat} (h : Emits g F m g₁) (h' : Emits g₁ G n g') : Emits g (F ++ G) n g' where
  toExtends := h.toExtends.trans h'.toExtends
  live := h'.live
  env := h'.env.trans h.env

theorem Emits.refl (g : Generator) : Emits g {} g.registers.live g :=
  ⟨⟨by simp, by simp, by simp⟩, rfl, rfl⟩

end

namespace Gen

section
variable {g g' : Generator}

theorem emit_emits {p : Piece} (h : emit p.instruction g = .ok () g') :
    Emits g (.one p) g.registers.live g' := by
  cases h
  exact ⟨⟨by simp [Fragment.one], by simp [Fragment.one], by simp [Fragment.one]⟩, rfl, rfl⟩

theorem alloc_emits {pos : Position} {r : Register} (h : alloc pos g = .ok r g') :
    Emits g (.take g.registers.live) (g.registers.live + 1) g' := by
  obtain ⟨-, -, rfl⟩ := alloc_ok h
  exact ⟨⟨by simp [Fragment.take], by simp [Fragment.take], rfl⟩, rfl, rfl⟩

theorem free_emits {r : Register} (h : free r g = .ok () g') :
    Emits g {} (g.registers.live - 1) g' := by
  cases free_ok h
  exact ⟨⟨by simp, by simp, by simp⟩, rfl, rfl⟩

theorem loadConst_emits {t : Register} {k : Const} {pos : Position} (h : loadConst t k pos g = .ok () g') :
    g.chunk.consts.size < maxConsts ∧
      Emits g (.constant t g.chunk.consts.size k) g.registers.live g' := by
  obtain ⟨hk, h⟩ := loadConst_ok h
  cases h
  refine ⟨hk, ⟨⟨?_, ?_, ?_⟩, rfl, rfl⟩⟩
  · simp [Fragment.constant, Piece.load, Chunk.addConst]
  · simp [Fragment.constant, Chunk.addConst]
  · simp [Fragment.constant]

theorem emit_code {i : Instruction} (h : emit i g = .ok () g') : Emits g (.one ⟨i, none⟩) g.registers.live g' :=
  emit_emits h

end

/-- The names of a compilation and of a scope have the same registers. -/
def Tracks (g : Generator) (S : Scope) : Prop := ∀ n, g.env.lookup n = S.register? n

theorem Tracks.of_env {g g' : Generator} {S : Scope} (h : Tracks g S) (he : g'.env = g.env) :
    Tracks g' S := by
  intro n
  rw [he]
  exact h n

section
variable {S : Scope} {g g' : Generator}

theorem assigns_eq (hS : Tracks g S) (r : Register) (e : Expr) : assigns g.env r e = S.assigns r e := by
  induction e with
  | assign p n e ih => simp only [assigns, Scope.assigns, ih, hS n]
  | binary p op left right ihl ihr => simp only [assigns, Scope.assigns, ihl, ihr]
  | unary p op e ih => simp only [assigns, Scope.assigns, ih]
  | group p e ih => simp only [assigns, Scope.assigns, ih]
  | literal | name | hole => rfl

theorem keep_emits (hS : Tracks g S) {r t q : Register} {e : Expr} (h : keep r t e g = .ok q g') :
    q = S.keptIn t r e ∧ Emits g (S.kept t r e) g.registers.live g' := by
  obtain ⟨g₁, g₂, h₁, h⟩ := bind_ok h
  cases h₁
  rw [assigns_eq hS] at h
  unfold Scope.keptIn Scope.kept Scope.mustKeep
  by_cases hk : (r != t && S.assigns r e) = true
  · rw [if_pos hk] at h
    rw [if_pos hk, if_pos hk]
    obtain ⟨_, g₁, h₁, h⟩ := bind_ok h
    obtain ⟨rfl, rfl⟩ := pure_ok h
    exact ⟨rfl, emit_emits (p := .copy q r) h₁⟩
  · rw [if_neg hk] at h
    rw [if_neg hk, if_neg hk]
    obtain ⟨rfl, rfl⟩ := pure_ok h
    exact ⟨rfl, .refl _⟩

theorem resolve_names (hS : Tracks g S) {n : Bytes} {pos : Position} {r : Register}
    (h : resolve n pos g = .ok r g') : g' = g ∧ ∃ c, S.names n = some c ∧ r = UInt8.ofNat c := by
  obtain ⟨hr, rfl⟩ := resolve_ok h
  rw [hS n, Scope.register?, Option.map_eq_some_iff] at hr
  obtain ⟨c, hc, rfl⟩ := hr
  exact ⟨rfl, c, hc, rfl⟩

/-- The code behind the operand of an operator in front, whose other operand is a zero. -/
theorem zero_emits {pos : Position} {o : Op} {t r : Register} (x y : Register → Register)
    (h : (do
      let zero ← alloc pos
      loadConst zero (.int 0) pos
      operate o t (x zero) (y zero)
      free zero
      return t : Gen Register) g = .ok r g') :
    r = t ∧ g.registers.live < maxRegisters ∧ g.chunk.consts.size < maxConsts ∧
      Emits g (.take g.registers.live ++ .constant (UInt8.ofNat g.registers.live) g.chunk.consts.size (.int 0) ++
        .one (.operate o t (x (UInt8.ofNat g.registers.live)) (y (UInt8.ofNat g.registers.live))))
        g.registers.live g' := by
  obtain ⟨zero, g₁, h₁, h⟩ := bind_ok h
  obtain ⟨_, g₂, h₂, h⟩ := bind_ok h
  obtain ⟨_, g₃, h₃, h⟩ := bind_ok h
  obtain ⟨_, g₄, h₄, h⟩ := bind_ok h
  obtain ⟨rfl, rfl⟩ := pure_ok h
  obtain ⟨hd, rfl, -⟩ := alloc_ok h₁
  have e₁ := alloc_emits h₁
  have hk : g₁.chunk.consts.size = g.chunk.consts.size := e₁.pool
  obtain ⟨hc, e₂⟩ := loadConst_emits h₂
  rw [hk] at hc e₂
  have e₃ := emit_emits (p := .operate o r _ _) h₃
  have e := ((e₁.trans e₂).trans e₃).trans (free_emits h₄)
  rw [Fragment.append_empty, e₃.live, e₂.live, e₁.live] at e
  exact ⟨rfl, hd, hc, e⟩

theorem store_emits {c : Nat} {a r : Register}
    (h : (do
      if a != UInt8.ofNat c then copy (UInt8.ofNat c) a
      return UInt8.ofNat c : Gen Register) g = .ok r g') :
    r = UInt8.ofNat c ∧ Emits g (.stored c a) g.registers.live g' := by
  unfold Fragment.stored
  by_cases ha : a = UInt8.ofNat c
  · simp only [ha, bne_self_eq_false, Bool.false_eq_true, ite_false] at h
    obtain ⟨rfl, rfl⟩ := pure_ok h
    rw [if_pos ha]
    exact ⟨rfl, .refl _⟩
  · simp only [bne_iff_ne.mpr ha, ite_true] at h
    obtain ⟨_, g₁, h₁, h⟩ := bind_ok h
    obtain ⟨rfl, rfl⟩ := pure_ok h
    rw [if_neg ha]
    exact ⟨rfl, emit_emits (p := .assign c a) h₁⟩

theorem move_emits {t a : Register} (h : (if a != t then copy t a else pure () : Gen Unit) g = .ok () g') :
    Emits g (.moved t a) g.registers.live g' := by
  unfold Fragment.moved
  by_cases ha : a = t
  · simp only [ha, bne_self_eq_false, Bool.false_eq_true, ite_false] at h
    obtain ⟨-, rfl⟩ := pure_ok h
    rw [if_pos ha]
    exact .refl _
  · rw [if_pos (bne_iff_ne.mpr ha)] at h
    rw [if_neg ha]
    exact emit_emits (p := .copy t a) h

theorem expr_emits (e : Expr) : ∀ {S : Scope} {t r : Register} {g g' : Generator}, Tracks g S →
    expr e t g = .ok r g' → ∃ F, ExprCode S g.registers.live g.chunk.consts.size e t F r ∧
      Emits g F g.registers.live g' := by
  induction e with
  | literal p v =>
    intro S t r g g' hS h
    obtain ⟨_, g₁, h₁, h⟩ := bind_ok h
    obtain ⟨rfl, rfl⟩ := pure_ok h
    obtain ⟨hk, e⟩ := loadConst_emits h₁
    exact ⟨_, .literal hk, e⟩
  | name p n =>
    intro S t r g g' hS h
    obtain ⟨rfl, c, hc, rfl⟩ := resolve_names hS h
    exact ⟨_, .name hc, .refl _⟩
  | group p e ih =>
    intro S t r g g' hS h
    obtain ⟨F, hF, e⟩ := ih hS h
    exact ⟨F, .group hF, e⟩
  | binary p op left right ihl ihr =>
    intro S t r g g' hS h
    unfold expr at h
    cases hf : Expr.fold? op left right with
    | some x =>
      simp only [hf] at h
      obtain ⟨_, g₁, h₁, h⟩ := bind_ok h
      obtain ⟨rfl, rfl⟩ := pure_ok h
      obtain ⟨hk, e⟩ := loadConst_emits h₁
      exact ⟨_, .folded hf hk, e⟩
    | none =>
      cases ho : op.operation? with
      | none =>
        simp only [hf, ho] at h
        obtain ⟨_, _, h₁, _⟩ := bind_ok h
        cases h₁
      | some o =>
        simp only [hf, ho] at h
        obtain ⟨a, g₁, h₁, h⟩ := bind_ok h
        obtain ⟨q, g₂, h₂, h⟩ := bind_ok h
        obtain ⟨scratch, g₃, h₃, h⟩ := bind_ok h
        obtain ⟨b, g₄, h₄, h⟩ := bind_ok h
        obtain ⟨_, g₅, h₅, h⟩ := bind_ok h
        obtain ⟨_, g₆, h₆, h⟩ := bind_ok h
        obtain ⟨rfl, rfl⟩ := pure_ok h
        obtain ⟨F, hF, e₁⟩ := ihl hS h₁
        have hS₁ := hS.of_env e₁.env
        obtain ⟨rfl, e₂⟩ := keep_emits hS₁ h₂
        have hS₂ := hS₁.of_env e₂.env
        -- the right side goes to the next free register
        obtain ⟨hd, rfl, -⟩ := alloc_ok h₃
        have e₃ := alloc_emits h₃
        have hd₂ : g₂.registers.live = g.registers.live := e₂.live.trans e₁.live
        obtain ⟨G, hG, e₄⟩ := ihr (hS₂.of_env e₃.env) h₄
        have e₅ := emit_emits (p := .operate o r _ b) h₅
        have e₆ := free_emits h₆
        -- the scratch register is given back, so as many are in use as before
        have e := ((((e₁.trans e₂).trans e₃).trans e₄).trans e₅).trans e₆
        have hk : g₃.chunk.consts.size = g.chunk.consts.size + F.consts.length := by
          rw [e₃.pool, e₂.pool, e₁.pool, Scope.consts_kept]
          rfl
        rw [e₃.live, hk, hd₂] at hG
        rw [Fragment.append_empty, e₅.live, e₄.live, e₃.live, hd₂] at e
        rw [hd₂] at hd
        exact ⟨_, .binary hf ho hF hd hG, e⟩
  | unary p op e ih =>
    intro S t r g g' hS h
    unfold expr at h
    split at h
    · cases hn : e.negate? with
      | some c =>
        simp only [hn] at h
        obtain ⟨_, g₁, h₁, h⟩ := bind_ok h
        obtain ⟨rfl, rfl⟩ := pure_ok h
        obtain ⟨hk, e⟩ := loadConst_emits h₁
        exact ⟨_, .negated hn hk, e⟩
      | none =>
        simp only [hn] at h
        obtain ⟨a, g₁, h₁, h⟩ := bind_ok h
        obtain ⟨F, hF, e₁⟩ := ih hS h₁
        obtain ⟨rfl, hd, hk, e₂⟩ := zero_emits (fun z => z) (fun _ => a) h
        rw [e₁.live] at hd e₂
        rw [e₁.pool] at hk e₂
        have e := e₁.trans e₂
        rw [← Fragment.append_assoc, ← Fragment.append_assoc] at e
        exact ⟨_, .minus hn hF hd hk, e⟩
    · obtain ⟨a, g₁, h₁, h⟩ := bind_ok h
      obtain ⟨F, hF, e₁⟩ := ih hS h₁
      obtain ⟨rfl, hd, hk, e₂⟩ := zero_emits (fun _ => a) (fun z => z) h
      rw [e₁.live] at hd e₂
      rw [e₁.pool] at hk e₂
      have e := e₁.trans e₂
      rw [← Fragment.append_assoc, ← Fragment.append_assoc] at e
      exact ⟨_, .bang hF hd hk, e⟩
    · obtain ⟨_, _, h₁, _⟩ := bind_ok h
      cases h₁
  | assign p n e ih =>
    intro S t r g g' hS h
    obtain ⟨q, g₁, h₁, h⟩ := bind_ok h
    obtain ⟨a, g₂, h₂, h⟩ := bind_ok h
    obtain ⟨rfl, c, hc, rfl⟩ := resolve_names hS h₁
    obtain ⟨F, hF, e₁⟩ := ih hS h₂
    obtain ⟨rfl, e₂⟩ := store_emits h
    have e := e₁.trans e₂
    rw [e₁.live] at e
    exact ⟨_, .assign hc hF, e⟩
  | hole =>
    intro S t r g g' hS h
    cases h

end

/-! ## Statements -/

theorem lookup_filter_ne (env : Environment) {m n : Bytes} (h : m ≠ n) :
    (env.filter (·.1 != n)).lookup m = env.lookup m := by
  induction env with
  | nil => rfl
  | cons p env ih =>
    obtain ⟨k, q⟩ := p
    by_cases hk : k = n
    · have hmk : (m == k) = false := beq_false_of_ne (hk ▸ h)
      rw [List.filter_cons_of_neg (by simp [hk]), List.lookup_cons, hmk]
      exact ih
    · rw [List.filter_cons_of_pos (by simp [hk]), List.lookup_cons, List.lookup_cons, ih]

theorem lookup_bind (env : Environment) (n m : Bytes) (r : Register) :
    (env.bind n r).lookup m = if m = n then some r else env.lookup m := by
  unfold Environment.bind
  by_cases h : m = n
  · simp [h]
  · rw [List.lookup_cons, if_neg h, beq_false_of_ne h]
    exact lookup_filter_ne env h

/-- A compilation stands where the scope `S` ends. -/
structure Stands (g : Generator) (S : Scope) : Prop where
  live : g.registers.live = S.cells
  names : Tracks g S

section
variable {S : Scope} {g g₁ g' : Generator}

theorem Stands.of_emits {F : Fragment} (h : Stands g S) (e : Emits g F g.registers.live g') :
    Stands g' S :=
  ⟨e.live.trans h.live, h.names.of_env e.env⟩

theorem enter_emits {pos : Position} (h : enter pos g = .ok () g') : Emits g {} g.registers.live g' := by
  cases h
  by_cases hp : 0 < pos.line
  · simp only [hp, ite_true]
    exact ⟨⟨by simp, by simp, by simp⟩, rfl, rfl⟩
  · simp only [hp, ite_false]
    exact .refl _

theorem tell_emits {n : Notice} (h : tell n g = .ok () g') : Emits g {} g.registers.live g' := by
  cases h
  exact ⟨⟨by simp, by simp, by simp⟩, rfl, rfl⟩

theorem next_emits {g₂ : Generator} {pos : Position} {e : Expr} {t r : Register}
    (h₁ : alloc pos g = .ok t g₁) (hc : g₂.chunk = g₁.chunk) (hr : g₂.registers = g₁.registers)
    (hS : Tracks g₂ S) (h₂ : expr e t g₂ = .ok r g') :
    ∃ F, NextCode S g.registers.live g.chunk.consts.size e F r ∧ Extends g F g' ∧
      g'.registers.live = g.registers.live + 1 ∧ g'.env = g₂.env := by
  obtain ⟨hd, rfl, -⟩ := alloc_ok h₁
  have e₁ := alloc_emits h₁
  have hk : g₂.chunk.consts.size = g.chunk.consts.size := by
    rw [hc, e₁.pool]
    rfl
  obtain ⟨F, hF, e₂⟩ := expr_emits e hS h₂
  have hl : g₂.registers.live = g.registers.live + 1 := by rw [hr, e₁.live]
  rw [hl, hk] at hF
  have e₂' : Extends g₁ F g' := ⟨hc ▸ e₂.code, hc ▸ e₂.consts, hr ▸ e₂.high⟩
  exact ⟨_, ⟨hd, F, hF, rfl⟩, e₁.toExtends.trans e₂', e₂.live.trans hl, e₂.env⟩

theorem scratch_emits {pos : Position} {e : Expr} {t r : Register} (hS : Stands g S)
    (h₁ : alloc pos g = .ok t g₁) (h₂ : expr e t g₁ = .ok r g') :
    ∃ F, NextCode S S.cells g.chunk.consts.size e F r ∧ Emits g F (S.cells + 1) g' := by
  have e₁ := alloc_emits h₁
  obtain ⟨F, hF, hx, hl, he⟩ := next_emits h₁ rfl rfl (hS.names.of_env e₁.env) h₂
  rw [hS.live] at hF hl
  exact ⟨F, hF, hx, hl, he.trans e₁.env⟩

theorem entered {α : Type} {pos : Position} {f : Gen α} {a : α} (hS : Stands g S)
    (h : (enter pos >>= fun _ => f) g = .ok a g') :
    ∃ g₀, Stands g₀ S ∧ g₀.chunk.consts.size = g.chunk.consts.size ∧
      (∀ F, Extends g₀ F g' → Extends g F g') ∧ f g₀ = .ok a g' := by
  obtain ⟨_, g₀, h₀, h⟩ := bind_ok h
  have e₀ := enter_emits h₀
  refine ⟨g₀, hS.of_emits e₀, e₀.pool, fun F x => ?_, h⟩
  have := e₀.toExtends.trans x
  rwa [Fragment.empty_append] at this

theorem jump_emits {op : Op} {a : Register} {index : Nat} (h : jump op a g = .ok index g') :
    index = g.chunk.code.size ∧ Emits g (.one ⟨.asbx op.code a 0, none⟩) g.registers.live g' := by
  obtain ⟨i, g₁, h₁, h⟩ := bind_ok h
  cases h₁
  obtain ⟨_, g₂, h₂, h⟩ := bind_ok h
  obtain ⟨rfl, rfl⟩ := pure_ok h
  exact ⟨rfl, emit_code h₂⟩

theorem condition_emits {e : Expr} {pos : Position} {exit : Nat} (hS : Stands g S)
    (h : condition e pos g = .ok exit g') :
    ∃ F r, NextCode S S.cells g.chunk.consts.size e F r ∧ exit = g.chunk.code.size + F.code.length ∧
      Emits g (F ++ .one ⟨.asbx Op.jmpIfNot.code r 0, none⟩) g.registers.live g' := by
  obtain ⟨t, g₁, h₁, h⟩ := bind_ok h
  obtain ⟨r, g₂, h₂, h⟩ := bind_ok h
  obtain ⟨i, g₃, h₃, h⟩ := bind_ok h
  obtain ⟨_, g₄, h₄, h⟩ := bind_ok h
  obtain ⟨rfl, rfl⟩ := pure_ok h
  obtain ⟨F, hF, e₂⟩ := scratch_emits hS h₁ h₂
  obtain ⟨hi, e₃⟩ := jump_emits h₃
  have e := (e₂.trans e₃).trans (free_emits h₄)
  rw [Fragment.append_empty, e₃.live, e₂.live, Nat.add_sub_cancel, ← hS.live] at e
  exact ⟨F, r, hF, hi.trans e₂.size, e⟩

/-- The placeholder `P` in front of `Y` gets a displacement and becomes `Q`. -/
theorem land_extends {F Y : Fragment} {P Q : Piece} {op a : UInt8} {d : Int16} {n : Int}
    {index target : Nat} {pos : Position} (hx : Extends g (F ++ .one P ++ Y) g₁)
    (hP : P.instruction = .asbx op a d) (hQ : Q.instruction = .asbx op a (Int16.ofInt n))
    (hi : index = g.chunk.code.size + F.code.length) (hn : (target : Int) - index = n)
    (h : land index target pos g₁ = .ok () g') :
    Reachable n ∧ Extends g (F ++ .one Q ++ Y) g' ∧ (∀ S, Stands g₁ S → Stands g' S) := by
  obtain ⟨hd, -, rfl⟩ := land_ok h
  rw [hn] at hd
  refine ⟨hd, ⟨?_, hx.consts, hx.high⟩, fun S hS => ⟨hS.live, hS.names⟩⟩
  have hl : index = (g.chunk.code.toList ++ F.code.map (·.instruction)).length := by simp [hi]
  have hc : g₁.chunk.code.toList = (g.chunk.code.toList ++ F.code.map (·.instruction)) ++
      .asbx op a d :: Y.code.map (·.instruction) := by
    rw [hx.code]
    simp [Fragment.one, hP]
  simp only [Chunk.setSbx, Array.toList_modify]
  rw [hc, List.modify_eq_take_drop, hl, List.take_left, List.drop_left, List.modifyHead_cons,
    Instruction.withSbx_asbx, ← hl, hn]
  simp [Fragment.one, hQ]

/-- A statement behind a condition, of which the exit is yet to be completed. The statement is given by what it
emits. -/
theorem guarded_emits {e : Expr} {pos : Position} {exit : Nat} {body : Stmt} {g₂ : Generator}
    (hbody : ∀ {g g' : Generator}, Stands g S → stmt body g = .ok () g' →
      ∃ F, StmtCode S g.chunk.consts.size body F ∧ Extends g F g' ∧ Stands g' (S.after body))
    (hS : Stands g S) (h₁ : condition e pos g = .ok exit g₁) (h₂ : stmt body g₁ = .ok () g₂) :
    ∃ F r Y, NextCode S S.cells g.chunk.consts.size e F r ∧
      StmtCode S (g.chunk.consts.size + F.consts.length) body Y ∧ exit = g.chunk.code.size + F.code.length ∧
      Extends g (F ++ .one ⟨.asbx Op.jmpIfNot.code r 0, none⟩ ++ Y) g₂ ∧ Stands g₂ (S.after body) := by
  obtain ⟨F, r, hF, hi, e₁⟩ := condition_emits hS h₁
  obtain ⟨Y, hY, x₂, hS₂⟩ := hbody (hS.of_emits e₁) h₂
  rw [e₁.pool] at hY
  exact ⟨F, r, Y, hF, by simpa [Fragment.one] using hY, hi, e₁.toExtends.trans x₂, hS₂⟩

theorem declare_stands {t : Register} {n : Bytes} {pos : Position} {g₂ : Generator} (hS : Stands g S)
    (h₁ : alloc pos g = .ok t g₁) (h₂ : declare n t g₁ = .ok () g₂) :
    Extends g (.take S.cells) g₂ ∧ Stands g₂ (S.declare n) ∧ g₂.chunk = g₁.chunk ∧
      g₂.registers = g₁.registers := by
  obtain ⟨-, rfl, -⟩ := alloc_ok h₁
  have e₁ := alloc_emits h₁
  cases h₂
  rw [hS.live] at e₁
  refine ⟨⟨e₁.code, e₁.consts, e₁.high⟩, ⟨e₁.live, fun m => ?_⟩, rfl, rfl⟩
  change (g₁.env.bind n _).lookup m = _
  rw [lookup_bind, e₁.env, hS.live, hS.names m]
  by_cases hm : m = n
  · rw [if_pos hm, Scope.register?, hm, Scope.names_declare_self, Option.map_some]
  · rw [if_neg hm, Scope.register?, Scope.register?, Scope.names_declare_of_ne S hm]

end

mutual

theorem stmt_emits : ∀ (s : Stmt) {S : Scope} {g g' : Generator}, Stands g S → stmt s g = .ok () g' →
    ∃ F, StmtCode S g.chunk.consts.size s F ∧ Extends g F g' ∧ Stands g' (S.after s)
  | .print p e, S, g, g', hS, h => by
    obtain ⟨g₀, hS₀, hk, hx, h⟩ := entered hS h
    obtain ⟨t, g₁, h₁, h⟩ := bind_ok h
    obtain ⟨r, g₂, h₂, h⟩ := bind_ok h
    obtain ⟨_, g₃, h₃, h₄⟩ := bind_ok h
    obtain ⟨F, hF, e₂⟩ := scratch_emits hS₀ h₁ h₂
    have e₃ := emit_emits (p := .print r) h₃
    have e := (e₂.trans e₃).trans (free_emits h₄)
    rw [Fragment.append_empty, e₃.live, e₂.live, Nat.add_sub_cancel, ← hS₀.live] at e
    rw [hk] at hF
    exact ⟨_, .print hF, hx _ e.toExtends, hS₀.of_emits e⟩
  | .var p n q none, S, g, g', hS, h => by
    obtain ⟨g₀, hS₀, hk, hx, h⟩ := entered hS h
    obtain ⟨t, g₁, h₁, h⟩ := bind_ok h
    obtain ⟨_, g₂, h₂, h⟩ := bind_ok h
    obtain ⟨-, rfl⟩ := pure_ok h
    obtain ⟨hd, -, -⟩ := alloc_ok h₁
    obtain ⟨x₂, hS₂, -, -⟩ := declare_stands hS₀ h₁ h₂
    have x := hx _ x₂
    rw [hS₀.live] at hd
    exact ⟨_, .declare hd, ⟨x.code, x.consts, x.high⟩, hS₂⟩
  | .var p n q (some e), S, g, g', hS, h => by
    obtain ⟨g₀, hS₀, hk, hx, h⟩ := entered hS h
    obtain ⟨t, g₁, h₁, h⟩ := bind_ok h
    obtain ⟨_, g₂, h₂, h⟩ := bind_ok h
    obtain ⟨r, g₃, h₃, h⟩ := bind_ok h
    obtain ⟨x₂, hS₂, hc, hr⟩ := declare_stands hS₀ h₁ h₂
    obtain ⟨F, hF, x₃, hl, he⟩ := next_emits h₁ hc hr hS₂.names h₃
    obtain ⟨-, rfl, -⟩ := alloc_ok h₁
    rw [hS₀.live] at hF hl h
    have e₄ := move_emits h
    have x := hx _ (x₃.trans e₄.toExtends)
    rw [hk] at hF
    have hS₃ : Stands g₃ (S.declare n) := ⟨hl, hS₂.names.of_env he⟩
    exact ⟨_, .init hF, ⟨x.code, x.consts, x.high⟩, hS₃.of_emits e₄⟩
  | .expr p e, S, g, g', hS, h => by
    obtain ⟨g₀, hS₀, hk, hx, h⟩ := entered hS h
    obtain ⟨t, g₁, h₁, h⟩ := bind_ok h
    obtain ⟨r, g₂, h₂, h₃⟩ := bind_ok h
    obtain ⟨F, hF, e₂⟩ := scratch_emits hS₀ h₁ h₂
    have e := e₂.trans (free_emits h₃)
    rw [Fragment.append_empty, e₂.live, Nat.add_sub_cancel, ← hS₀.live] at e
    rw [hk] at hF
    exact ⟨_, .expr hF, hx _ e.toExtends, hS₀.of_emits e⟩
  | .block p body, S, g, g', hS, h => by
    obtain ⟨g₀, hS₀, hk, hx, h⟩ := entered hS h
    obtain ⟨F, hF, x₁, hS'⟩ := stmts_emits body hS₀ h
    rw [hk] at hF
    exact ⟨F, .block hF, hx _ x₁, hS'⟩
  | .ifThen p e yes, S, g, g', hS, h => by
    obtain ⟨g₀, hS₀, hk, hx, h⟩ := entered hS h
    obtain ⟨exit, g₁, h₁, h⟩ := bind_ok h
    obtain ⟨_, g₂, h₂, h⟩ := bind_ok h
    obtain ⟨_, _, h₃, h⟩ := bind_ok h
    cases h₃
    obtain ⟨F, r, Y, hF, hY, hi, x₁₂, hS₂⟩ := guarded_emits (stmt_emits yes) hS₀ h₁ h₂
    obtain ⟨hr, x₃, hst⟩ :=
      land_extends (Q := .jumpUnless r (Y.code.length + 1)) x₁₂ rfl rfl hi (hi ▸ x₁₂.distance) h
    rw [hk] at hF hY
    exact ⟨_, .ifThen hF hY hr, hx _ x₃, hst _ hS₂⟩
  | .ifElse p e yes no, S, g, g', hS, h => by
    obtain ⟨g₀, hS₀, hk, hx, h⟩ := entered hS h
    obtain ⟨exit, g₁, h₁, h⟩ := bind_ok h
    obtain ⟨_, g₂, h₂, h⟩ := bind_ok h
    obtain ⟨done, g₃, h₃, h⟩ := bind_ok h
    obtain ⟨_, _, hc, h⟩ := bind_ok h
    cases hc
    obtain ⟨_, g₄, h₄, h⟩ := bind_ok h
    obtain ⟨_, g₅, h₅, h⟩ := bind_ok h
    obtain ⟨_, _, hc, h⟩ := bind_ok h
    cases hc
    obtain ⟨F, r, Y, hF, hY, hi, x₁₂, hS₂⟩ := guarded_emits (stmt_emits yes) hS₀ h₁ h₂
    obtain ⟨hj, e₃⟩ := jump_emits h₃
    have x₁₃ := x₁₂.trans e₃.toExtends
    -- the exit of the condition lands behind the jump that ends the first branch
    rw [Fragment.append_assoc (F ++ _)] at x₁₃
    obtain ⟨hr, x₄, hst₄⟩ :=
      land_extends (Q := .jumpUnless r (Y.code.length + 2)) x₁₃ rfl rfl hi (hi ▸ x₁₃.distance_past) h₄
    obtain ⟨N, hN, x₅, hS₅⟩ := stmt_emits no (hst₄ _ (hS₂.of_emits e₃)) h₅
    have x₄₅ := x₄.trans x₅
    rw [← Fragment.append_assoc (F ++ _)] at x₄₅
    have hd : done =
        g₀.chunk.code.size + (F ++ Fragment.one (.jumpUnless r (Y.code.length + 2)) ++ Y).code.length := by
      rw [hj, x₁₂.size]
      simp only [Fragment.size_append, Fragment.size_one]
    obtain ⟨hr', x₆, hst₆⟩ :=
      land_extends (Q := .jump (N.code.length + 1)) x₄₅ rfl rfl hd (hd ▸ x₄₅.distance) h
    rw [x₄.pool] at hN
    rw [hk] at hF hY hN
    exact ⟨_, .ifElse hF hY hr (by simpa [Fragment.one, Nat.add_assoc] using hN) hr', hx _ x₆, hst₆ _ hS₅⟩
  | .while p e body, S, g, g', hS, h => by
    obtain ⟨g₀, hS₀, hk, hx, h⟩ := entered hS h
    obtain ⟨_, _, hc, h⟩ := bind_ok h
    cases hc
    obtain ⟨exit, g₁, h₁, h⟩ := bind_ok h
    obtain ⟨_, g₂, h₂, h⟩ := bind_ok h
    obtain ⟨back, g₃, h₃, h⟩ := bind_ok h
    obtain ⟨_, g₄, h₄, h⟩ := bind_ok h
    obtain ⟨_, _, hc, h⟩ := bind_ok h
    cases hc
    obtain ⟨F, r, B, hF, hB, hi, x₁₂, hS₂⟩ := guarded_emits (stmt_emits body) hS₀ h₁ h₂
    obtain ⟨hj, e₃⟩ := jump_emits h₃
    have x₁₃ := x₁₂.trans e₃.toExtends
    -- nothing stands behind the jump back yet
    rw [← Fragment.append_empty (_ ++ Fragment.one _)] at x₁₃
    have hd : back =
        g₀.chunk.code.size + (F ++ Fragment.one ⟨.asbx Op.jmpIfNot.code r 0, none⟩ ++ B).code.length := by
      rw [hj, x₁₂.size]
    have hm : (g₀.chunk.code.size : Int) - back = -(F.code.length + 1 + B.code.length) := by
      rw [hd]
      simp only [Fragment.size_append, Fragment.size_one]
      omega
    obtain ⟨hr', x₄, hst₄⟩ :=
      land_extends (Q := .jump (-(F.code.length + 1 + B.code.length))) x₁₃ rfl rfl hd hm h₄
    rw [Fragment.append_empty, Fragment.append_assoc (F ++ _)] at x₄
    obtain ⟨hr, x₅, hst₅⟩ :=
      land_extends (Q := .jumpUnless r (B.code.length + 2)) x₄ rfl rfl hi (hi ▸ x₄.distance_past) h
    have x := hx _ x₅
    rw [← Fragment.append_assoc (F ++ _)] at x
    rw [hk] at hF hB
    exact ⟨_, .while hF hB hr hr', ⟨x.code, x.consts, x.high⟩,
      hst₅ _ (hst₄ _ (hS₂.of_emits e₃))⟩
  | .func p n q ps body, S, g, g', hS, h => by
    obtain ⟨g₀, hS₀, hk, hx, h⟩ := entered hS h
    have e := tell_emits h
    exact ⟨_, .func, hx _ e.toExtends, hS₀.of_emits e⟩
  | .ret p e, S, g, g', hS, h => by
    obtain ⟨g₀, hS₀, hk, hx, h⟩ := entered hS h
    have e := tell_emits h
    exact ⟨_, .ret, hx _ e.toExtends, hS₀.of_emits e⟩
  | .bad p m, S, g, g', hS, h => by
    obtain ⟨g₀, hS₀, hk, hx, h⟩ := entered hS h
    cases h
  | .hole, S, g, g', hS, h => by cases h

theorem stmts_emits : ∀ (l : List Stmt) {S : Scope} {g g' : Generator}, Stands g S →
    stmts l g = .ok () g' →
    ∃ F, StmtsCode S g.chunk.consts.size l F ∧ Extends g F g' ∧ Stands g' (S.afterAll l)
  | [], S, g, g', hS, h => by
    cases h
    exact ⟨_, .nil, (Emits.refl g).toExtends, hS⟩
  | s :: rest, S, g, g', hS, h => by
    obtain ⟨_, g₁, h₁, h₂⟩ := bind_ok h
    obtain ⟨F, hF, x₁, hS₁⟩ := stmt_emits s hS h₁
    obtain ⟨G, hG, x₂, hS₂⟩ := stmts_emits rest hS₁ h₂
    rw [x₁.pool] at hG
    exact ⟨_, .cons hF hG, x₁.trans x₂, hS₂⟩

end

end Gen

/-! ## Programs -/

def Generator.finished (g : Generator) : Chunk :=
  { g.chunk.write (.abc Op.halt.code 0 0 0) g.line with registers := g.registers.high }

theorem Generator.code_finished (g : Generator) :
    g.finished.code.toList = g.chunk.code.toList ++ [.abc Op.halt.code 0 0 0] := by
  simp [finished]

theorem Generator.consts_finished (g : Generator) : g.finished.consts = g.chunk.consts := by
  simp [finished]

theorem compile_ok_iff {p : Program} {c : Chunk} : (compile p).result = .ok c ↔
    p.firstBad? = none ∧ ∃ g, Gen.stmts p.body {} = .ok () g ∧ c = g.finished := by
  unfold compile
  constructor
  · intro h
    split at h
    · rename_i g hg
      cases h
      change Gen.program p {} = .ok _ g at hg
      unfold Gen.program at hg
      cases hb : p.firstBad? with
      | some b => rw [hb] at hg; cases hg
      | none =>
        rw [hb] at hg
        obtain ⟨_, g₁, h₁, hg⟩ := Gen.bind_ok hg
        cases hg
        exact ⟨rfl, g₁, h₁, rfl⟩
    · cases h
  · rintro ⟨hb, g, hg, rfl⟩
    have hrun : (Gen.program p).run {} = .ok () { g with
        chunk := g.finished
        notices := g.notices.push (.compiled g.finished.code.size g.finished.consts.size g.registers.high
          g.registers.live g.env.length) } := by
      change Gen.program p {} = _
      unfold Gen.program
      rw [hb]
      exact Gen.bind_eq_ok hg rfl
    rw [hrun]

/-- The fragment `F` is the code of a program and makes up the chunk `c`, in front of a final halt. -/
structure Compiled (p : Program) (c : Chunk) (F : Fragment) : Prop where
  body : StmtsCode .empty 0 p.body F
  code : c.code.toList = F.code.map (·.instruction) ++ [.abc Op.halt.code 0 0 0]
  consts : c.consts.toList = F.consts.map .const
  registers : c.registers = F.peak

theorem stands_empty : Gen.Stands {} .empty := ⟨rfl, fun _ => rfl⟩

theorem compile_compiled {p : Program} {c : Chunk} (h : (compile p).result = .ok c) :
    ∃ F, Compiled p c F := by
  obtain ⟨-, g, hg, rfl⟩ := compile_ok_iff.mp h
  obtain ⟨F, hF, x, -⟩ := Gen.stmts_emits p.body stands_empty hg
  refine ⟨F, hF, ?_, ?_, ?_⟩
  · simp [g.code_finished, x.code]
  · simp [g.consts_finished, x.consts]
  · simp [Generator.finished, x.high]

end RegCode
