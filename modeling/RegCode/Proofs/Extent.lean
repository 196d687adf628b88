import RegCode.Build
import RegCode.Proofs.Lexical
import RegCode.Proofs.ParseSound
import RegCode.Proofs.RoundTrip
import RegCode.Proofs.WellFormed

/-!
# The size of code

A source has no more tokens than bytes, and none of its strings is longer than it is. Code is at most twice as long
as the terminals it comes from, and its strings are among them. So the code of a source of less than two gigabytes
can be stored.
-/

namespace RegCode

/-! ## Tokens -/

namespace Lexeme

theorem length_unescape_le (b : UInt8) : (unescape b).length ≤ 2 := by
  unfold unescape
  repeat' split
  all_goals simp

theorem length_stringRest_le (acc : Bytes) (width : Nat) (text : Bytes)
    (h : (stringRest acc width text).kind ≠ .illegal) :
    (stringRest acc width text).literal.length ≤ acc.length + text.length := by
  fun_induction stringRest acc width text with
  | case1 | case3 => exact absurd rfl h
  | case2 acc width rest => simp
  | case4 acc width b rest ih =>
    have hb := length_unescape_le b
    have hi := ih h
    simp only [List.length_append, List.length_reverse, List.length_cons] at hi ⊢
    omega
  | case5 acc width b rest _ _ _ ih =>
    have hi := ih h
    simp only [List.length_cons] at hi ⊢
    omega

theorem length_number_le (text : Bytes) : (number text).literal.length ≤ text.length := by
  have hsplit := congrArg List.length (List.takeWhile_append_dropWhile (p := Text.isDigit) (l := text))
  have hrun (l : Bytes) := (List.takeWhile_prefix (p := Text.isDigit) (l := l)).length_le
  unfold number
  dsimp only
  split
  · rename_i d rest he
    rw [he, List.length_append] at hsplit
    split
    · have := hrun (d :: rest)
      simp only [List.length_append, List.length_cons] at hsplit this ⊢
      omega
    · exact hrun text
  · exact hrun text

theorem length_read_le (b : UInt8) (rest : Bytes) (h : (read b rest).kind ≠ .illegal) :
    (read b rest).literal.length ≤ rest.length + 1 := by
  revert h
  fun_cases read b rest with
  | case1 | case2 | case3 => simp
  | case4 =>
    intro h
    exact (length_stringRest_le [] 1 rest h).trans (by simp)
  | case5 => exact fun _ => (List.takeWhile_prefix _).length_le
  | case6 => exact fun _ => length_number_le (b :: rest)
  | case7 =>
    intro h
    unfold unexpected at h
    split at h <;> exact absurd rfl h

end Lexeme

namespace Cursor

theorem length_nextToken_le (c : Cursor) (h : c.nextToken.1.kind ≠ .illegal) :
    c.nextToken.1.literal.length ≤ c.rest.length := by
  have hl : c.skipGap.rest.length ≤ c.rest.length := by simp [skipGap]
  cases hr : c.skipGap.rest with
  | nil => simp [nextToken, hr]
  | cons b rest =>
    simp only [nextToken, hr, List.length_cons] at h hl ⊢
    exact (Lexeme.length_read_le b rest h).trans hl

theorem tokensOnto_bounded (acc : List Token) (c : Cursor) :
    ∃ front eof, (c.tokensOnto acc).1 = acc.reverse ++ (front ++ [eof]) ∧ eof.kind = .eof ∧
      (∀ t ∈ front, t.kind ≠ .eof ∧ (t.kind ≠ .illegal → t.literal.length ≤ c.rest.length)) ∧
      front.length ≤ c.rest.length := by
  fun_induction tokensOnto acc c with
  | case1 acc c next h => exact ⟨[], next.1, by simp, h, by simp, Nat.zero_le _⟩
  | case2 acc c next h ih =>
    obtain ⟨front, eof, heq, hk, hfront, hlen⟩ := ih
    have hlt : next.2.rest.length < c.rest.length := length_nextToken_lt c h
    refine ⟨next.1 :: front, eof, by simp [heq], hk, ?_, by simp only [List.length_cons]; omega⟩
    intro t ht
    rcases List.mem_cons.mp ht with rfl | ht
    · exact ⟨h, length_nextToken_le c⟩
    · exact ⟨(hfront t ht).1, fun hi => ((hfront t ht).2 hi).trans (Nat.le_of_lt hlt)⟩

end Cursor

/-- In front of the end there are no more tokens than bytes, and unless they are illegal they are no longer. -/
theorem tokenize_bounded (source : Bytes) :
    ((tokenize source).takeWhile (·.kind != .eof)).length ≤ (Text.Canonical.compose source).length ∧
      ∀ t ∈ (tokenize source).takeWhile (·.kind != .eof), t.kind ≠ .illegal →
        t.literal.length ≤ (Text.Canonical.compose source).length := by
  obtain ⟨front, eof, heq, hk, hfront, hlen⟩ := Cursor.tokensOnto_bounded [] (.ofSource source)
  have hstop : (tokenize source).takeWhile (·.kind != .eof) = front := by
    rw [tokenize, heq, List.reverse_nil, List.nil_append,
      List.takeWhile_append_of_pos fun t ht => by simpa using (hfront t ht).1]
    simp [hk]
  rw [hstop]
  exact ⟨hlen, fun t ht => (hfront t ht).2⟩

/-! ## Code -/

/-- The code and `n` more instructions are at most twice as many as the terminals, and its strings are among
them. -/
structure Fragment.Within (F : Fragment) (n : Nat) (xs : List Terminal) : Prop where
  code : F.code.length + n ≤ 2 * xs.length
  strings : ∀ s, .str s ∈ F.consts → .string s ∈ xs

namespace Fragment

variable {F G : Fragment} {m n : Nat} {xs ys : List Terminal}

theorem Within.widen (h : F.Within m xs) (hs : ∀ x ∈ xs, x ∈ ys) (hl : n + 2 * xs.length ≤ m + 2 * ys.length) :
    F.Within n ys := by
  refine ⟨?_, fun s hm => hs _ (h.strings s hm)⟩
  have := h.code
  omega

theorem Within.append (hF : F.Within m xs) (hG : G.Within n ys) : (F ++ G).Within (m + n) (xs ++ ys) := by
  constructor
  · have := hF.code
    have := hG.code
    simp only [code_append, List.length_append]
    omega
  · intro s hs
    rcases List.mem_append.mp hs with hs | hs
    · exact List.mem_append_left _ (hF.strings s hs)
    · exact List.mem_append_right _ (hG.strings s hs)

theorem Within.snoc (hF : F.Within (n + 1) xs) (hc : G.code.length ≤ 1) (hk : ∀ s, .str s ∉ G.consts) :
    (F ++ G).Within n xs := by
  constructor
  · have := hF.code
    simp only [code_append, List.length_append]
    omega
  · intro s hs
    exact hF.strings s ((List.mem_append.mp hs).resolve_right (hk s))

theorem Within.one (hF : F.Within (n + 1) xs) (q : Piece) : (F ++ .one q).Within n xs :=
  hF.snoc (Nat.le_refl 1) (by simp)

theorem Within.zero (hF : F.Within (n + 1) xs) (t : Register) (k : Nat) :
    (F ++ .constant t k (.int 0)).Within n xs :=
  hF.snoc (Nat.le_refl 1) (by simp)

theorem Within.take (hF : F.Within n xs) (d : Nat) : (F ++ .take d).Within n xs :=
  ⟨by simpa using hF.code, by simpa using hF.strings⟩

theorem Within.moved (hF : F.Within (n + 1) xs) (t r : Register) : (F ++ .moved t r).Within n xs := by
  unfold Fragment.moved
  split <;> exact hF.snoc (by simp) (by simp)

theorem Within.stored (hF : F.Within (n + 1) xs) (c : Nat) (r : Register) : (F ++ .stored c r).Within n xs := by
  unfold Fragment.stored
  split <;> exact hF.snoc (by simp) (by simp)

theorem Within.kept (hF : F.Within (n + 1) xs) (S : Scope) (t r : Register) (e : Expr) :
    (F ++ S.kept t r e).Within n xs := by
  unfold Scope.kept
  split <;> exact hF.snoc (by simp) (by simp)

theorem Within.declared (h : F.Within n xs) : F.declared.Within n xs := ⟨h.code, h.strings⟩

theorem Within.looped (h : F.Within n xs) : F.looped.Within n xs := ⟨h.code, h.strings⟩

end Fragment

theorem ExprCode.within {S : Scope} {d k : Nat} {e : Expr} {t r : Register} {F : Fragment}
    (h : ExprCode S d k e t F r) (hp : e.proper = true) : F.Within 1 e.yield := by
  induction h with
  | @literal _ _ _ v =>
    cases v with
    | unmarked => cases hp
    | int | float | str => constructor <;> simp [Expr.yield, Literal.yield, Literal.const]
  | name => constructor <;> simp [Expr.yield]
  | group _ ih => exact (ih hp).widen (by grind [Expr.yield]) (by grind [Expr.yield])
  | folded => constructor <;> simp [Expr.yield]; omega
  | @negated _ _ _ e c _ hn =>
    have hc : ∀ s, c ≠ .str s := by
      rintro s rfl
      unfold Expr.negate? at hn
      split at hn <;> cases hn
    constructor
    · simp [Expr.yield]
    · intro s hs
      exact absurd (List.mem_singleton.mp hs).symm (hc s)
  | binary _ _ _ _ _ ihF ihG =>
    simp only [Expr.proper, Bool.and_eq_true] at hp
    refine (((((ihF hp.1.2).kept ..).take _).append (ihG hp.2)).one _).widen ?_ ?_ <;> grind [Expr.yield]
  | minus _ _ _ _ ih | bang _ _ _ ih =>
    -- a sign is one terminal, but it takes a zero and an operation
    simp only [Expr.proper, Bool.and_eq_true] at hp
    refine .one (.zero (.take ((ih hp.2).widen ?_ ?_) _) ..) _ <;> grind [Expr.yield]
  | assign _ _ ih => exact ((ih hp).stored ..).widen (by grind [Expr.yield]) (by grind [Expr.yield])

theorem NextCode.within {S : Scope} {cells k : Nat} {e : Expr} {F : Fragment} {r : Register}
    (h : NextCode S cells k e F r) (hp : e.proper = true) : F.Within 1 e.yield := by
  obtain ⟨-, G, hG, rfl⟩ := h
  have h := hG.within hp
  exact ⟨by simpa using h.code, by simpa using h.strings⟩

theorem NextCode.within_cond {S : Scope} {cells k : Nat} {e : Expr} {F : Fragment} {r : Register}
    (h : NextCode S cells k e F r) (hp : e.proper = true) (q : Piece) :
    (F ++ .one q).Within 2 (Stmt.yieldCond e) := by
  refine .one ((h.within hp).widen ?_ ?_) q <;> grind [Stmt.yieldCond]

mutual

theorem StmtCode.within : ∀ {S : Scope} {k : Nat} {s : Stmt} {X : Fragment}, StmtCode S k s X → s.proper = true →
    X.Within 0 s.yield
  | _, _, _, _, .print hF, hp =>
    ((hF.within hp).one _).widen (by grind [Stmt.yield]) (by grind [Stmt.yield])
  | _, _, _, _, .declare _, _ => .declared ⟨Nat.zero_le _, by simp⟩
  | _, _, _, _, .init hF, hp =>
    .declared (((hF.within hp).moved ..).widen (by grind [Stmt.yield]) (by grind [Stmt.yield]))
  | _, _, _, _, .expr hF, hp =>
    (hF.within hp).widen (by grind [Stmt.yield]) (by grind [Stmt.yield])
  | _, _, _, _, .block hB, hp =>
    (StmtsCode.within hB hp).widen (by grind [Stmt.yield]) (by grind [Stmt.yield])
  | _, _, _, _, .ifThen hF hY _, hp => by
    simp only [Stmt.proper, Bool.and_eq_true] at hp
    refine ((hF.within_cond hp.1.1 _).append (StmtCode.within hY hp.2)).widen ?_ ?_ <;> grind [Stmt.yield]
  | _, _, _, _, .ifElse hF hY _ hN _, hp => by
    simp only [Stmt.proper, Bool.and_eq_true] at hp
    have hY := StmtCode.within hY hp.1.1.1.2
    have hN := StmtCode.within hN hp.2
    refine ((((hF.within_cond hp.1.1.1.1.1 _).append hY).one _).append hN).widen ?_ ?_ <;> grind [Stmt.yield]
  | _, _, _, _, .while hF hB _ _, hp => by
    simp only [Stmt.proper, Bool.and_eq_true] at hp
    have hB := StmtCode.within hB hp.2
    refine .looped ((((hF.within_cond hp.1.1 _).append hB).one _).widen ?_ ?_) <;> grind [Stmt.yield]
  | _, _, _, _, .ret, _ => ⟨Nat.zero_le _, by simp⟩
  | _, _, _, _, .func, _ => ⟨Nat.zero_le _, by simp⟩

theorem StmtsCode.within : ∀ {S : Scope} {k : Nat} {l : List Stmt} {X : Fragment}, StmtsCode S k l X →
    Stmt.properAll l = true → X.Within 0 (Stmt.yieldAll l)
  | _, _, _, _, .nil, _ => ⟨Nat.le_refl 0, by simp⟩
  | _, _, _, _, .cons hF hG, hp => by
    simp only [Stmt.properAll, Bool.and_eq_true] at hp
    exact (StmtCode.within hF hp.1).append (StmtsCode.within hG hp.2)

end

/-! ## Sources -/

theorem compileSource_ok {source : Bytes} {c : Chunk} (h : (compileSource source).1 = .ok c) :
    (parse (tokenize source)).errors = [] ∧ (compile (parse (tokenize source)).program).result = .ok c := by
  unfold compileSource readProgram parseSource at h
  by_cases he : (parse (tokenize source)).errors.isEmpty = true
  · simp only [he, if_true] at h
    refine ⟨List.isEmpty_iff.mp he, ?_⟩
    cases hr : (compile (parse (tokenize source)).program).result with
    | error f => rw [hr] at h; cases h
    | ok c' => rw [hr] at h; cases h; rfl
  · simp only [he] at h
    cases h

theorem length_of_spells {ts : List Token} {xs : List Terminal} (h : Spells ts xs) : xs.length = ts.length :=
  h.length_eq.symm

theorem string_of_spells {ts : List Token} {xs : List Terminal} (h : Spells ts xs) {s : Bytes}
    (hs : .string s ∈ xs) : ∃ t ∈ ts, t.kind = .string ∧ t.literal = s := by
  have hm : some (.string s) ∈ ts.map Token.terminal? := by
    rw [spells_iff.mp h]
    exact List.mem_map_of_mem hs
  obtain ⟨t, ht, hx⟩ := List.mem_map.mp hm
  refine ⟨t, ht, ?_⟩
  unfold Token.terminal? at hx
  split at hx <;> simp_all

/-- All lengths can be written in 32 bits. -/
structure Chunk.Short (c : Chunk) : Prop where
  code : c.code.size < 2 ^ 32
  strings : ∀ s, .const (.str s) ∈ c.consts → s.length < 2 ^ 32

theorem Compiled.storable {p : Program} {c : Chunk} {F : Fragment} (hF : Compiled p c F) (h : c.Short) :
    c.Storable := by
  refine ⟨?_, ?_, h.code, h.strings⟩
  · intro v hv
    rw [← Array.mem_toList_iff, hF.consts] at hv
    obtain ⟨k, -, rfl⟩ := List.mem_map.mp hv
    rfl
  · have hpool := (stmts_pooled hF.body).size (Nat.zero_le _)
    rw [← Array.length_toList, hF.consts, List.length_map]
    unfold maxConsts at hpool
    omega

theorem compileSource_short {source : Bytes} {c : Chunk} (h : (compileSource source).1 = .ok c)
    (hsize : (Text.Canonical.compose source).length < 2 ^ 31) : c.Short := by
  obtain ⟨he, hc⟩ := compileSource_ok h
  obtain ⟨F, hF⟩ := compile_compiled hc
  obtain ⟨hp, hy⟩ := parse_body he
  obtain ⟨hcount, hlength⟩ := tokenize_bounded source
  have hw := hF.body.within hp
  constructor
  · have hcode := hw.code
    rw [length_of_spells hy] at hcode
    rw [← Array.length_toList, hF.code]
    simp only [List.length_append, List.length_map, List.length_singleton]
    omega
  · intro s hs
    rw [← Array.mem_toList_iff, hF.consts] at hs
    obtain ⟨k, hk, hks⟩ := List.mem_map.mp hs
    cases hks
    obtain ⟨t, ht, hkind, rfl⟩ := string_of_spells hy (hw.strings s hk)
    have hlen := hlength t ht (by simp [hkind])
    omega

end RegCode
