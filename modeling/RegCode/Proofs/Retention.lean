import RegCode.Proofs.Simulation

/-!
# What is written to the register of a variable

Behind its declaration a variable shares its register with nothing that stands further on: scratch registers
are taken behind the variables declared so far. What stands in front of the declaration was compiled before the
register was bound, and may use it. A loop around the declaration comes back there.
-/

namespace RegCode

namespace Fragment

def Writes (F : Fragment) (i : Nat) (r : Register) : Prop :=
  ∃ q, F.code[i]? = some q ∧ q.instruction.target? = some r

def Assigns (F : Fragment) (i cell : Nat) : Prop := ∃ q, F.code[i]? = some q ∧ q.assigned = some cell

theorem code_append_cases {F G : Fragment} {i : Nat} {q : Piece} (h : (F ++ G).code[i]? = some q) :
    i < F.code.length ∧ F.code[i]? = some q ∨ ∃ j, i = F.code.length + j ∧ G.code[j]? = some q := by
  rw [code_append] at h
  by_cases hi : i < F.code.length
  · rw [List.getElem?_append_left hi] at h
    exact .inl ⟨hi, h⟩
  · rw [List.getElem?_append_right (by omega)] at h
    exact .inr ⟨i - F.code.length, by omega, h⟩

theorem sites_append_cases {F G : Fragment} {j : Nat} {s : Site} (h : (F ++ G).sites[j]? = some s) :
    j < F.sites.length ∧ F.sites[j]? = some s ∨
      ∃ j' s', j = F.sites.length + j' ∧ G.sites[j']? = some s' ∧ s = s'.shift F.code.length := by
  rw [sites_append] at h
  by_cases hj : j < F.sites.length
  · rw [List.getElem?_append_left hj] at h
    exact .inl ⟨hj, h⟩
  · rw [List.getElem?_append_right (by omega), List.getElem?_map] at h
    obtain ⟨s', hs', rfl⟩ := Option.map_eq_some_iff.mp h
    exact .inr ⟨j - F.sites.length, s', by omega, hs', rfl⟩

/-- How the code of a text lies that begins with `n` declarations behind it and ends with `m`. Scratch registers
lie behind the variables declared in front of them, and no jump leads out of a loop to what stands before it. -/
structure Layout (n m : Nat) (F : Fragment) : Prop where
  count : n + F.sites.length = m
  scratch (i : Nat) (q : Piece) (r : Register) : F.code[i]? = some q → q.instruction.target? = some r →
    q.assigned = none → n ≤ r.toNat
  assigned (i : Nat) (q : Piece) (r : Register) (cell : Nat) : F.code[i]? = some q →
    q.instruction.target? = some r → q.assigned = some cell → r = UInt8.ofNat cell ∧ cell < maxRegisters
  jumps (i : Nat) (q : Piece) (d : Int) : F.code[i]? = some q → q.instruction.displacement? = some d → 0 ≤ i + d
  within (j : Nat) (s : Site) : F.sites[j]? = some s →
    s.loop ≤ s.first ∧ s.first ≤ s.stop ∧ s.stop ≤ F.code.length
  behind (j : Nat) (s : Site) (i : Nat) (q : Piece) (r : Register) : F.sites[j]? = some s → s.stop ≤ i →
    F.code[i]? = some q → q.instruction.target? = some r → q.assigned = none → n + j < r.toNat
  back (j : Nat) (s : Site) (i : Nat) (q : Piece) (d : Int) : F.sites[j]? = some s → s.loop ≤ i →
    F.code[i]? = some q → q.instruction.displacement? = some d → s.loop ≤ i + d

namespace Layout

variable {n m k : Nat} {F G : Fragment}

theorem append (hF : Layout n m F) (hG : Layout m k G) : Layout n k (F ++ G) where
  count := by
    have h₁ := hF.count
    have h₂ := hG.count
    rw [sites_append, List.length_append, List.length_map]
    omega
  scratch i q r hq hr ha := by
    rcases code_append_cases hq with ⟨-, h⟩ | ⟨j, rfl, h⟩
    · exact hF.scratch i q r h hr ha
    · have h₁ := hG.scratch j q r h hr ha
      have h₂ := hF.count
      omega
  assigned i q r cell hq hr ha := by
    rcases code_append_cases hq with ⟨-, h⟩ | ⟨j, rfl, h⟩
    · exact hF.assigned i q r cell h hr ha
    · exact hG.assigned j q r cell h hr ha
  jumps i q d hq hd := by
    rcases code_append_cases hq with ⟨-, h⟩ | ⟨j, rfl, h⟩
    · exact hF.jumps i q d h hd
    · have := hG.jumps j q d h hd
      omega
  within j s hs := by
    rw [code_append, List.length_append]
    rcases sites_append_cases hs with ⟨-, h⟩ | ⟨j, s, rfl, h, rfl⟩
    · have := hF.within j s h
      omega
    · have := hG.within j s h
      simp only [Site.shift]
      omega
  behind j s i q r hs hi hq hr ha := by
    rcases sites_append_cases hs with ⟨hj, h⟩ | ⟨j, s, rfl, h, rfl⟩
    · rcases code_append_cases hq with ⟨-, h'⟩ | ⟨i, rfl, h'⟩
      · exact hF.behind j s i q r h hi h' hr ha
      · have h₁ := hG.scratch i q r h' hr ha
        have h₂ := hF.count
        omega
    · simp only [Site.shift] at hi
      rcases code_append_cases hq with ⟨hlt, -⟩ | ⟨i, rfl, h'⟩
      · omega
      · have h₁ := hG.behind j s i q r h (by omega) h' hr ha
        have h₂ := hF.count
        omega
  back j s i q d hs hi hq hd := by
    rcases sites_append_cases hs with ⟨-, h⟩ | ⟨j, s, rfl, h, rfl⟩
    · rcases code_append_cases hq with ⟨-, h'⟩ | ⟨i, rfl, h'⟩
      · exact hF.back j s i q d h hi h' hd
      -- a jump of the second part leads back to its front at most
      · have h₁ := hG.jumps i q d h' hd
        have h₂ := hF.within j s h
        omega
    · simp only [Site.shift] at hi ⊢
      rcases code_append_cases hq with ⟨hlt, -⟩ | ⟨i, rfl, h'⟩
      · omega
      · have := hG.back j s i q d h (by omega) h' hd
        omega

theorem empty (hs : F.sites = []) (hc : F.code = []) : Layout n n F := by
  constructor <;> simp [hs, hc]

theorem take (depth : Nat) : Layout n n (.take depth) := empty rfl rfl

theorem piece {q : Piece} (hs : F.sites = []) (hc : F.code = [q])
    (hn : ∀ r, q.instruction.target? = some r → q.assigned = none → n ≤ r.toNat)
    (ha : ∀ r cell, q.instruction.target? = some r → q.assigned = some cell →
      r = UInt8.ofNat cell ∧ cell < maxRegisters)
    (hd : ∀ d, q.instruction.displacement? = some d → 0 ≤ d) : Layout n n F := by
  have hq : ∀ (i : Nat) (q' : Piece), F.code[i]? = some q' → q' = q := by
    intro i q' h
    have := List.mem_of_getElem? h
    rw [hc, List.mem_singleton] at this
    exact this
  constructor
  · simp [hs]
  · intro i q' r h hr hna
    cases hq i q' h
    exact hn r hr hna
  · intro i q' r cell h hr hca
    cases hq i q' h
    exact ha r cell hr hca
  · intro i q' d h hd'
    cases hq i q' h
    have := hd d hd'
    omega
  · simp [hs]
  · simp [hs]
  · simp [hs]

theorem scratch_piece {q : Piece} (hs : F.sites = []) (hc : F.code = [q]) (ha : q.assigned = none)
    (hn : ∀ r, q.instruction.target? = some r → n ≤ r.toNat)
    (hd : ∀ d, q.instruction.displacement? = some d → 0 ≤ d) : Layout n n F := by
  refine piece hs hc (fun r hr _ => hn r hr) (fun r cell _ h => ?_) hd
  rw [ha] at h
  cases h

theorem constant {t : Register} (ht : n ≤ t.toNat) (index : Nat) (v : Const) :
    Layout n n (.constant t index v) := by
  refine scratch_piece (q := .load t index) rfl rfl rfl (fun r hr => ?_) (fun d hd => ?_)
  · rw [Piece.load, Instruction.target?_abx] at hr
    cases hr
    exact ht
  · rw [Piece.load, Instruction.displacement?_abx rfl] at hd
    cases hd

theorem register_piece {op : Op} {t x y : Register} (hj : op.jumps = false) (ht : op.writes = true → n ≤ t.toNat) :
    Layout n n (.one ⟨.abc op.code t x y, none⟩) := by
  refine scratch_piece (q := ⟨.abc op.code t x y, none⟩) rfl rfl rfl (fun r hr => ?_) (fun d hd => ?_)
  · rw [Instruction.target?_abc] at hr
    by_cases hw : op.writes = true
    · rw [if_pos hw] at hr
      cases hr
      exact ht hw
    · rw [if_neg hw] at hr
      cases hr
  · rw [Instruction.displacement?_abc hj] at hd
    cases hd

theorem jump_piece {op : Op} {x : UInt8} {d : Int} (hw : op.writes = false) (hj : op.jumps = true)
    (hr : Reachable d) (h0 : 0 ≤ d) : Layout n n (.one ⟨.asbx op.code x (Int16.ofInt d), none⟩) := by
  refine scratch_piece (q := ⟨.asbx op.code x (Int16.ofInt d), none⟩) rfl rfl rfl (fun r h => ?_) (fun d' h => ?_)
  · rw [Instruction.target?_asbx, if_neg (by simp [hw])] at h
    cases h
  · rw [Instruction.displacement?_asbx hj, Machine.toInt_ofInt hr] at h
    cases h
    exact h0

theorem assign_piece {cell : Nat} (hc : cell < maxRegisters) (a : Register) :
    Layout n n (.one (.assign cell a)) := by
  refine piece (q := .assign cell a) rfl rfl (fun r _ h => nomatch h) (fun r cell' hr h => ?_) (fun d hd => ?_)
  · rw [Piece.assign, Instruction.target?_abc] at hr
    cases hr
    cases h
    exact ⟨rfl, hc⟩
  · rw [Piece.assign, Instruction.displacement?_abc rfl] at hd
    cases hd

theorem declared (hF : Layout n n F) : Layout n (n + 1) F.declared := by
  have hsite : ∀ (j : Nat) (s : Site), F.declared.sites[j]? = some s → j = 0 ∧ s = ⟨0, 0, F.code.length⟩ := by
    intro j s hs
    cases j with
    | zero =>
      cases hs
      exact ⟨rfl, rfl⟩
    | succ j => cases hs
  refine ⟨rfl, hF.scratch, hF.assigned, hF.jumps, ?_, ?_, ?_⟩
  · intro j s hs
    obtain ⟨-, rfl⟩ := hsite j s hs
    exact ⟨Nat.le_refl _, Nat.zero_le _, Nat.le_refl _⟩
  · intro j s i q r hs hi hq
    obtain ⟨-, rfl⟩ := hsite j s hs
    have hlt : i < F.code.length := (List.getElem?_eq_some_iff.mp hq).1
    change F.code.length ≤ i at hi
    omega
  · intro j s i q d hs _ hq hd
    obtain ⟨-, rfl⟩ := hsite j s hs
    exact hF.jumps i q d hq hd

/-- A loop goes back as far as to its own start, so that is where its declarations have their loop. -/
theorem looped (hF : Layout n m F) {d : Int} (hr : Reachable d) (hd : 0 ≤ F.code.length + d) :
    Layout n m (F ++ .one (.jump d)).looped := by
  have hcode : ∀ (i : Nat) (q : Piece), (F ++ .one (.jump d)).code[i]? = some q →
      F.code[i]? = some q ∨ i = F.code.length ∧ q = .jump d := by
    intro i q hq
    rcases code_append_cases hq with ⟨-, h⟩ | ⟨j, rfl, h⟩
    · exact .inl h
    · cases j with
      | zero => exact .inr ⟨rfl, (Option.some.inj h).symm⟩
      | succ j => cases h
  -- all declarations inside now belong to this loop
  have hsite : ∀ (j : Nat) (s : Site), (F ++ .one (.jump d)).looped.sites[j]? = some s →
      ∃ s', F.sites[j]? = some s' ∧ s = { s' with loop := 0 } := by
    intro j s hs
    simp only [Fragment.looped, sites_append, one, List.map_nil, List.append_nil, List.getElem?_map] at hs
    obtain ⟨s', hs', rfl⟩ := Option.map_eq_some_iff.mp hs
    exact ⟨s', hs', rfl⟩
  have ht : (Piece.jump d).instruction.target? = none := by
    rw [Piece.jump, Instruction.target?_asbx]
    rfl
  have hjumps : ∀ (i : Nat) (q : Piece) (d' : Int), (F ++ .one (.jump d)).code[i]? = some q →
      q.instruction.displacement? = some d' → 0 ≤ i + d' := by
    intro i q d' hq hd'
    rcases hcode i q hq with h | ⟨rfl, rfl⟩
    · exact hF.jumps i q d' h hd'
    · rw [Piece.jump, Instruction.displacement?_asbx rfl, Machine.toInt_ofInt hr] at hd'
      cases hd'
      exact hd
  constructor
  · simp [Fragment.looped, one, hF.count]
  · intro i q r hq hr ha
    rcases hcode i q hq with h | ⟨-, rfl⟩
    · exact hF.scratch i q r h hr ha
    · rw [ht] at hr
      cases hr
  · intro i q r cell hq hr ha
    rcases hcode i q hq with h | ⟨-, rfl⟩
    · exact hF.assigned i q r cell h hr ha
    · cases ha
  · exact hjumps
  · intro j s hs
    obtain ⟨s, hs', rfl⟩ := hsite j s hs
    have := hF.within j s hs'
    simp only [code_looped, code_append, List.length_append]
    omega
  · intro j s i q r hs hi hq hr ha
    obtain ⟨s, hs', rfl⟩ := hsite j s hs
    rcases hcode i q hq with h | ⟨-, rfl⟩
    · exact hF.behind j s i q r hs' hi h hr ha
    · rw [ht] at hr
      cases hr
  · intro j s i q d' hs _ hq hd'
    obtain ⟨s, hs', rfl⟩ := hsite j s hs
    exact hjumps i q d' hq hd'

end Layout

/-! ## Compiled code -/

end Fragment

theorem kept_layout (S : Scope) {n : Nat} {t : Register} (ht : n ≤ t.toNat) (a : Register) (e : Expr) :
    Fragment.Layout n n (S.kept t a e) := by
  unfold Scope.kept
  split
  · exact .register_piece rfl fun _ => ht
  · exact .empty rfl rfl

theorem stored_layout {n cell : Nat} (hc : cell < maxRegisters) (a : Register) :
    Fragment.Layout n n (.stored cell a) := by
  unfold Fragment.stored
  split
  · exact .empty rfl rfl
  · exact .assign_piece hc a

theorem moved_layout {n : Nat} {t : Register} (ht : n ≤ t.toNat) (a : Register) :
    Fragment.Layout n n (.moved t a) := by
  unfold Fragment.moved
  split
  · exact .empty rfl rfl
  · exact .register_piece rfl fun _ => ht

theorem operation_layout {n : Nat} {op : Kind} {o : Op} (h : op.operation? = some o) {t : Register}
    (ht : n ≤ t.toNat) (x y : Register) : Fragment.Layout n n (.one (.operate o t x y)) := by
  have hj : o.jumps = false := by cases op <;> cases h <;> rfl
  exact .register_piece hj fun _ => ht

theorem expr_layout {S : Scope} {n d k : Nat} {e : Expr} {t r : Register} {F : Fragment}
    (h : ExprCode S d k e t F r) (hS : S.cells ≤ maxRegisters) (hn : n ≤ t.toNat) (hd : n ≤ d) :
    Fragment.Layout n n F := by
  induction h with
  | literal | folded | negated => exact .constant hn ..
  | name => exact .empty rfl rfl
  | group _ ih => exact ih hn hd
  | binary hf ho hF hlt hG ihF ihG =>
    have hd' := toNat_register hlt
    refine Fragment.Layout.append ?_ (operation_layout ho hn ..)
    refine Fragment.Layout.append ?_ (ihG (by omega) (by omega))
    exact ((ihF hn hd).append (kept_layout S hn ..)).append (.take _)
  | minus _ hF hlt hk ih | bang hF hlt hk ih =>
    have hd' := toNat_register hlt
    refine Fragment.Layout.append ?_ (.register_piece rfl fun _ => hn)
    exact ((ih hn hd).append (.take _)).append (.constant (by omega) ..)
  | assign hc hF ih =>
    exact (ih hn hd).append (stored_layout (Nat.lt_of_lt_of_le (S.bound _ _ hc) hS) _)

theorem next_layout {S : Scope} {cells k : Nat} {e : Expr} {F : Fragment} {r : Register}
    (h : NextCode S cells k e F r) (hS : S.cells ≤ maxRegisters) : Fragment.Layout cells cells F := by
  obtain ⟨hlt, G, hG, rfl⟩ := h
  have ht := toNat_register hlt
  exact .append (.take _) (expr_layout hG hS (by omega) (Nat.le_succ _))

theorem condition_layout {S : Scope} {k : Nat} {e : Expr} {F : Fragment} {r : Register}
    (h : NextCode S S.cells k e F r) {d : Int} (hd : Reachable d) (h0 : 0 ≤ d) :
    Fragment.Layout S.cells S.cells (F ++ .one (.jumpUnless r d)) :=
  (next_layout h (Nat.le_of_lt h.1)).append (.jump_piece rfl rfl hd h0)

mutual

theorem stmt_layout : ∀ {S : Scope} {k : Nat} {s : Stmt} {F : Fragment}, StmtCode S k s F →
    Fragment.Layout S.cells (S.after s).cells F
  | _, _, _, _, .print hF => (next_layout hF (Nat.le_of_lt hF.1)).append (.register_piece rfl nofun)
  | _, _, _, _, .declare _ => .declared (.take _)
  | S, _, _, _, .init hF =>
    .declared ((next_layout hF hF.1).append (moved_layout (Nat.le_of_eq (toNat_register hF.1).symm) _))
  | _, _, _, _, .expr hF => next_layout hF (Nat.le_of_lt hF.1)
  | _, _, _, _, .block hB => stmts_layout hB
  | _, _, _, _, .ifThen hF hY hd => by
    have h₁ := stmt_layout hY
    exact (condition_layout hF hd (by omega)).append h₁
  | _, _, _, _, .ifElse hF hY hd hN hd' => by
    have h₁ := stmt_layout hY
    have h₂ := stmt_layout hN
    refine Fragment.Layout.append (.append ?_ (.jump_piece rfl rfl hd' (by omega))) h₂
    exact (condition_layout hF hd (by omega)).append h₁
  | _, _, _, _, .while hF hB hd hd' => by
    have h₁ := stmt_layout hB
    refine ((condition_layout hF hd (by omega)).append h₁).looped hd' ?_
    simp only [Fragment.code_append, Fragment.code_one, List.length_append, List.length_singleton]
    omega
  | _, _, _, _, .ret => .empty rfl rfl
  | _, _, _, _, .func => .empty rfl rfl

theorem stmts_layout : ∀ {S : Scope} {k : Nat} {l : List Stmt} {F : Fragment}, StmtsCode S k l F →
    Fragment.Layout S.cells (S.afterAll l).cells F
  | _, _, _, _, .nil => .empty rfl rfl
  | _, _, _, _, .cons hF hG => (stmt_layout hF).append (stmts_layout hG)

end

/-! ## Runs -/

section
variable {p : Program} {c : Chunk} {F : Fragment} {M : Machine}

theorem Compiled.code_cases (h : Compiled p c F) {n : Nat} {i : Instruction} (hi : c.code[n]? = some i) :
    (∃ q, F.code[n]? = some q ∧ q.instruction = i) ∨ n = F.code.length ∧ i = .abc Op.halt.code 0 0 0 := by
  rw [← Array.getElem?_toList, h.code] at hi
  by_cases hn : n < F.code.length
  · rw [List.getElem?_append_left (by simpa using hn), List.getElem?_map] at hi
    exact .inl (Option.map_eq_some_iff.mp hi)
  · rw [List.getElem?_append_right (by simpa using hn), List.length_map] at hi
    obtain ⟨hlt, he⟩ := List.getElem?_eq_some_iff.mp hi
    have hlast : n - F.code.length = 0 := Nat.lt_one_iff.mp hlt
    exact .inr ⟨by omega, by simp [← he]⟩

/-- A run that is in the loop around a declaration, or behind it, does not leave to what stands before. -/
theorem Compiled.loop_le (h : Compiled p c F) {n m cell : Nat} (hF : F.Layout n m) {site : Site}
    (hs : F.sites[cell]? = some site) {s t : M.State} (hr : M.Reaches c s t) (hpc : site.loop ≤ s.pc) :
    site.loop ≤ t.pc := by
  induction hr with
  | refl => exact hpc
  | @tail s t _ hst ih =>
    obtain ⟨i, hi, hnext, -⟩ := M.step_cases hst
    rcases hnext with hnext | ⟨d, hd, hnext⟩
    · omega
    · rcases h.code_cases hi with ⟨q, hq, rfl⟩ | ⟨-, rfl⟩
      · have := hF.back cell site s.pc q d hs ih hq hd
        omega
      · rw [Instruction.displacement?_abc rfl] at hd
        cases hd

namespace Machine

/-- From a state on, whatever is written to the register of a declaration is assigned to it or comes from its own
code. -/
def Keeps (M : Machine) (c : Chunk) (F : Fragment) (cell : Nat) (site : Site) (s₁ : M.State) : Prop :=
  ∀ s t, M.Reaches c s₁ s → M.Step c s t → F.Writes s.pc (UInt8.ofNat cell) →
    F.Assigns s.pc cell ∨ site.first ≤ s.pc ∧ s.pc < site.stop

/-- From a state on, the run comes to code in front of a declaration and inside the outermost loop around it which
has the register of the declaration for scratch. -/
def Overwrites (M : Machine) (c : Chunk) (F : Fragment) (cell : Nat) (site : Site) (s₁ : M.State) : Prop :=
  ∃ s t, M.Reaches c s₁ s ∧ M.Step c s t ∧ site.loop ≤ s.pc ∧ s.pc < site.first ∧
    F.Writes s.pc (UInt8.ofNat cell) ∧ ¬ F.Assigns s.pc cell

end Machine

theorem Fragment.Layout.writes_behind {m cell : Nat} (hF : F.Layout 0 m) (hm : m ≤ maxRegisters) {site : Site}
    (hs : F.sites[cell]? = some site) {i : Nat} (hi : site.stop ≤ i) (hw : F.Writes i (UInt8.ofNat cell)) :
    F.Assigns i cell := by
  obtain ⟨q, hq, hr⟩ := hw
  have hcell : cell < maxRegisters := by
    have h₁ := (List.getElem?_eq_some_iff.mp hs).1
    have h₂ := hF.count
    omega
  cases ha : q.assigned with
  | none =>
    have := hF.behind cell site i q _ hs hi hq hr ha
    rw [toNat_register hcell] at this
    omega
  | some cell' =>
    obtain ⟨he, hlt⟩ := hF.assigned i q _ cell' hq hr ha
    have := congrArg UInt8.toNat he
    rw [toNat_register hcell, toNat_register hlt] at this
    exact ⟨q, hq, by rw [ha, this]⟩

theorem Compiled.keeps_iff (h : Compiled p c F) {m cell : Nat} (hF : F.Layout 0 m) (hm : m ≤ maxRegisters)
    {site : Site} (hs : F.sites[cell]? = some site) {s₁ : M.State} (hpc : s₁.pc = site.stop) :
    M.Keeps c F cell site s₁ ↔ ¬ M.Overwrites c F cell site s₁ := by
  constructor
  · rintro hk ⟨s, t, hr, hst, -, hlt, hw, hna⟩
    rcases hk s t hr hst hw with ha | ⟨hle, -⟩
    · exact hna ha
    · omega
  · intro hno s t hr hst hw
    by_cases ha : F.Assigns s.pc cell
    · exact .inl ha
    · have hin := hF.within cell site hs
      have hloop := h.loop_le hF hs hr (by omega)
      -- in front of the declaration it would be overwritten, and behind it the register is its own
      refine .inr ⟨?_, ?_⟩
      · by_contra hlt
        exact hno ⟨s, t, hr, hst, hloop, by omega, hw, ha⟩
      · by_contra hle
        exact ha (hF.writes_behind hm hs (by omega) hw)

theorem Compiled.register_unchanged (h : Compiled p c F) {s t : M.State} (hst : M.Step c s t) {r : Register}
    (hw : ¬ F.Writes s.pc r) : t.registers r = s.registers r := by
  obtain ⟨i, hi, -, hr⟩ := M.step_cases hst
  apply hr
  intro ht
  rcases h.code_cases hi with ⟨q, hq, rfl⟩ | ⟨-, rfl⟩
  · exact hw ⟨q, hq, ht⟩
  · rw [Instruction.target?_abc] at ht
    cases ht

/-- The code of a declaration keeps the register for the variable, unless it stands in a loop and the code in front
of it in the loop, which may be the condition, was compiled to use the same register: exactly when the run comes
back there the variable is overwritten. -/
theorem variable_kept_iff (hc : (compile p).result = .ok c) : (∃ F, Compiled p c F) ∧ ∀ F, Compiled p c F →
    F.sites.length = (Scope.empty.afterAll p.body).cells ∧
    ∀ (cell : Nat) (site : Site), F.sites[cell]? = some site → ∀ (M : Machine) (s₁ : M.State), s₁.pc = site.stop →
      (M.Keeps c F cell site s₁ ↔ ¬ M.Overwrites c F cell site s₁) ∧
      (site.loop = site.first → M.Keeps c F cell site s₁) ∧
      ∀ s t, M.Step c s t → ¬ F.Writes s.pc (UInt8.ofNat cell) →
        t.registers (UInt8.ofNat cell) = s.registers (UInt8.ofNat cell) := by
  refine ⟨compile_compiled hc, fun F hF => ?_⟩
  have hL : F.Layout 0 _ := stmts_layout hF.body
  have hm := hF.body.cells_le
  change _ ≤ max 0 maxRegisters at hm
  refine ⟨by simpa using hL.count, ?_⟩
  intro cell site hs M s₁ hpc
  have hiff := hF.keeps_iff (M := M) hL (by omega) hs hpc
  refine ⟨hiff, fun hout => hiff.mpr ?_, fun s t hst hw => hF.register_unchanged hst hw⟩
  rintro ⟨s, t, -, -, hle, hlt, -, -⟩
  omega

/-- The program `var i = 0; while (i < 1) { var a = 5; i = i + 1; } print a;`. -/
def lost : Program where
  body := [.var {} [105] {} (some (.literal {} (.int 0))),
    .while {} (.binary {} .less (.name {} [105]) (.literal {} (.int 1))) (.block {} [
      .var {} [97] {} (some (.literal {} (.int 5))),
      .expr {} (.assign {} [105] (.binary {} .plus (.name {} [105]) (.literal {} (.int 1))))]),
    .print {} (.name {} [97])]

def lostCode : Fragment where
  code := [.load 0 0, .load 2 1, .operate (.compare .lt) 1 0 2, .jumpUnless 1 6, .load 1 2, .load 3 3,
    .operate .add 2 0 3, .assign 0 2, .jump (-7), .print 1]
  consts := [.int 0, .int 1, .int 5, .int 1]
  sites := [⟨0, 0, 1⟩, ⟨1, 4, 5⟩]
  peak := 4

def lostChunk : Chunk where
  code := (lostCode.code.map Piece.instruction ++ [Instruction.abc Op.halt.code 0 0 0]).toArray
  consts := (lostCode.consts.map .const).toArray
  registers := lostCode.peak

theorem lost_compiled : Compiled lost lostChunk lostCode := by
  have h : StmtsCode .empty 0 lost.body _ :=
    .cons (.init ⟨by decide, _, .literal (by decide), rfl⟩)
    (.cons (.while ⟨by decide, _, .binary rfl rfl (.name rfl) (by decide) (.literal (by decide)), rfl⟩
      (.block (.cons (.init ⟨by decide, _, .literal (by decide), rfl⟩)
        (.cons (.expr
          ⟨by decide, _, .assign rfl (.binary rfl rfl (.name rfl) (by decide) (.literal (by decide))), rfl⟩)
          .nil))) (by decide +kernel) (by decide +kernel)) (.cons (.print ⟨by decide, _, .name rfl, rfl⟩) .nil))
  exact ⟨h, rfl, rfl, rfl⟩

/-- The last test of the loop leaves its outcome, zero, in the register of `a`, and that is what is printed. -/
theorem lost_overwritten : (compile lost).result = .ok lostChunk ∧ Compiled lost lostChunk lostCode ∧
    lostCode.sites[1]? = some ⟨1, 4, 5⟩ ∧ ∃ s₁ : Machine.whole.State,
      Machine.whole.Reaches lostChunk ⟨0, fun _ => (0 : Int), []⟩ s₁ ∧ s₁.pc = 5 ∧ s₁.registers 1 = (5 : Int) ∧
      ¬ Machine.whole.Keeps lostChunk lostCode 1 ⟨1, 4, 5⟩ s₁ ∧
      ∃ s, Machine.whole.Reaches lostChunk s₁ s ∧ Machine.whole.Halted lostChunk s ∧ s.printed = [(0 : Int)] := by
  have hc : (compile lost).result = .ok lostChunk := by
    have h : (compile lost).result.toOption = some lostChunk := by decide +kernel
    cases hr : (compile lost).result with
    | error f =>
      rw [hr] at h
      cases h
    | ok c =>
      rw [hr] at h
      exact congrArg _ (Option.some.inj h)
  have hrun : ((Machine.whole.runFor lostChunk 5 ⟨0, fun _ => (0 : Int), []⟩).bind fun s₁ =>
      (Machine.whole.runFor lostChunk 5 s₁).bind fun s => (Machine.whole.runFor lostChunk 3 s).map fun t =>
        (s₁.pc, s₁.registers 1, s.pc, t.pc, t.printed)) = some (5, (5 : Int), 2, 10, [(0 : Int)]) := by
    decide +kernel
  obtain ⟨s₁, h₁, hrun⟩ := Option.bind_eq_some_iff.mp hrun
  obtain ⟨s, h₂, hrun⟩ := Option.bind_eq_some_iff.mp hrun
  obtain ⟨t, h₃, hrun⟩ := Option.map_eq_some_iff.mp hrun
  simp only [Prod.mk.injEq] at hrun
  obtain ⟨hpc₁, hreg, hpc, hpc', hout⟩ := hrun
  have hr₂ := Machine.whole.reaches_runFor h₂
  refine ⟨hc, lost_compiled, rfl, s₁, Machine.whole.reaches_runFor h₁, hpc₁, hreg, ?_, t,
    hr₂.trans (Machine.whole.reaches_runFor h₃), ?_, hout⟩
  · obtain ⟨-, hall⟩ := variable_kept_iff hc
    obtain ⟨-, hall⟩ := hall lostCode lost_compiled
    rw [(hall 1 ⟨1, 4, 5⟩ rfl Machine.whole s₁ hpc₁).1, not_not]
    obtain ⟨t', h₄, -⟩ := Option.bind_eq_some_iff.mp h₃
    refine ⟨s, t', hr₂, h₄, ?_, ?_, ⟨.operate (.compare .lt) 1 0 2, ?_, ?_⟩, ?_⟩
    · rw [hpc]
      decide
    · rw [hpc]
      decide
    · rw [hpc]
      rfl
    · exact Instruction.target?_abc ..
    · rintro ⟨q, hq, ha⟩
      rw [hpc] at hq
      cases Option.some.inj hq
      cases ha
  · unfold Machine.Halted
    rw [hpc']
    decide +kernel

end

end RegCode
