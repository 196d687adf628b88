import Mathlib.Data.List.Basic
import RegCode.Proofs.Legible
import RegCode.Text.Canonical

/-!
# Composed texts

Composition works segment by segment, and a segment begins with every character that is no mark. So a text that is
cut in front of such a character is composed in two parts. ASCII characters are no marks, and none is formed by
composition: an ASCII byte of a composed text begins what a segment was composed to, and the text in front of it is
what the text in front of that segment was composed to.

A few characters take no part in composition at all, line feeds and quotation marks among them. A text and its
composed form hold equally many of each.
-/

namespace RegCode.Text

namespace Sorted

theorem findBetween_some {table : Array Nat} {range : Nat → Nat × Nat} {c steps lo hi e : Nat}
    (hhi : hi ≤ table.size) (h : findBetween table range c steps lo hi = some e) :
    e ∈ table ∧ (range e).1 ≤ c ∧ c ≤ (range e).2 := by
  fun_induction findBetween table range c steps lo hi with
  | case1 => cases h
  | case2 _ lo hi hlt mid entry _ ih => exact ih (by omega) h
  | case3 _ lo hi hlt mid entry _ _ ih => exact ih hhi h
  | case4 _ lo hi hlt mid entry hlo hup =>
    have hmid : mid < table.size := by omega
    have hentry : entry ∈ table := by
      simp only [entry, Array.getD, hmid, ↓reduceDIte]
      exact Array.getElem_mem hmid
    rw [← Option.some.inj h]
    exact ⟨hentry, Nat.le_of_not_lt hlo, Nat.le_of_not_lt hup⟩
  | case5 => cases h

theorem find_some {table : Array Nat} {range : Nat → Nat × Nat} {c e : Nat} (h : find table range c = some e) :
    e ∈ table ∧ (range e).1 ≤ c ∧ c ≤ (range e).2 :=
  findBetween_some (Nat.le_refl _) h

theorem find_eq_none {table : Array Nat} {range : Nat → Nat × Nat} {c n : Nat} (h : ∀ e ∈ table, n ≤ (range e).1)
    (hc : c < n) : find table range c = none := by
  cases hf : find table range c with
  | none => rfl
  | some e =>
    obtain ⟨he, hle, -⟩ := find_some hf
    have := h e he
    omega

end Sorted

namespace Canonical

/-! ## Tables -/

/-- Characters that take no part in composition: tab, line feed, carriage return, quotation mark, backslash. -/
def inert : List Nat := [9, 10, 13, 34, 92]

theorem inert_spec : ∀ k ∈ inert, 0 < k ∧ k < 128 := by decide

theorem forall_mem_of_all (table : Array Nat) (p : Nat → Bool) (h : table.toList.all p = true) {e : Nat}
    (he : e ∈ table) : p e = true :=
  List.all_eq_true.mp h e (Array.mem_toList_iff.mpr he)

theorem tables_checked :
    (decompositions.toList.all fun e => Nat.ble 128 (e / 0x10000000000) &&
      (!inert.contains (e / 0x100000 % 0x100000) && (decide (e / 0x100000 % 0x100000).isValidChar &&
        (e % 0x100000 == 0 || Nat.ble 128 (e % 0x100000) && decide (e % 0x100000).isValidChar)))) = true ∧
    (composites.toList.all fun e => !(0 :: inert).contains (e / 0x10000000000) &&
      (Nat.ble 128 (e / 0x100000 % 0x100000) && (Nat.ble 128 (e % 0x100000) &&
      decide (e % 0x100000).isValidChar))) = true ∧
    (classes.toList.all fun e => Nat.ble 128 (e / 0x10000000)) = true ∧
    (joining.toList.all fun e => Nat.ble 128 (e / 0x100000)) = true ∧
    (compatible.toList.all fun e => Nat.ble 128 (e / 0x10000000) && (!(e / 0x10 % 0x10 == 1) ||
      decompositions.toList.all fun d => Nat.blt (d / 0x10000000000) (e / 0x10000000) ||
        Nat.blt (e / 0x100 % 0x100000) (d / 0x10000000000))) = true := by
  decide +kernel

/-- Only what is beyond ASCII has a decomposition. It may begin with an ASCII character that is not inert, and what
follows is beyond ASCII. -/
theorem decompositions_spec {e : Nat} (he : e ∈ decompositions) :
    128 ≤ e / 0x10000000000 ∧ e / 0x100000 % 0x100000 ∉ inert ∧ (e / 0x100000 % 0x100000).isValidChar ∧
      (e % 0x100000 = 0 ∨ 128 ≤ e % 0x100000 ∧ (e % 0x100000).isValidChar) := by
  simpa using forall_mem_of_all _ _ tables_checked.1 he

/-- No composite is formed from an inert character, none has an ASCII character for its second, and none is one. -/
theorem composites_spec {e : Nat} (he : e ∈ composites) :
    e / 0x10000000000 ∉ 0 :: inert ∧ 128 ≤ e / 0x100000 % 0x100000 ∧ 128 ≤ e % 0x100000 ∧
    (e % 0x100000).isValidChar := by
  simpa using forall_mem_of_all _ _ tables_checked.2.1 he

theorem classes_spec (e : Nat) (he : e ∈ classes) : 128 ≤ e / 0x10000000 := by
  simpa using forall_mem_of_all _ _ tables_checked.2.2.1 he

theorem joining_spec (e : Nat) (he : e ∈ joining) : 128 ≤ e / 0x100000 := by
  simpa using forall_mem_of_all _ _ tables_checked.2.2.2.1 he

theorem compatible_spec {e : Nat} (he : e ∈ compatible) : 128 ≤ e / 0x10000000 ∧
    (e / 0x10 % 0x10 = 1 → ∀ d ∈ decompositions, d / 0x10000000000 < e / 0x10000000 ∨
      e / 0x100 % 0x100000 < d / 0x10000000000) := by
  have h := forall_mem_of_all _ _ tables_checked.2.2.2.2 he
  simp only [Bool.and_eq_true, Bool.or_eq_true, Bool.not_eq_true', beq_eq_false_iff_ne, Nat.ble_eq] at h
  refine ⟨h.1, fun hflag d hd => ?_⟩
  have hall := h.2.resolve_left (absurd hflag)
  simpa [Nat.blt_eq] using List.all_eq_true.mp hall d (Array.mem_toList_iff.mpr hd)

/-! ## Characters -/

theorem combiningClass_ascii {c : Nat} (h : c < 128) : combiningClass c = 0 := by
  have hnone : Sorted.find classes (fun e => (e / 0x10000000, e / 0x100 % 0x100000)) c = none :=
    Sorted.find_eq_none classes_spec h
  unfold combiningClass
  rw [hnone]

theorem joins_ascii {c : Nat} (h : c < 128) : joins c = false := by
  have hvowel : isVowel c = false := by
    rw [isVowel, Bool.and_eq_false_iff, decide_eq_false_iff_not, vowelFirst]
    omega
  have hfinal : isFinal c = false := by
    rw [isFinal, Bool.and_eq_false_iff, decide_eq_false_iff_not, finalBase]
    omega
  rw [joins, hvowel, hfinal, Sorted.find_eq_none joining_spec h]
  rfl

theorem isMark_ascii {c : Nat} (h : c < 128) : isMark c = false := by
  rw [isMark, combiningClass_ascii h, joins_ascii h]
  rfl

theorem compatibleEntry_ascii {c : Nat} (h : c < 128) : compatibleEntry c = none :=
  Sorted.find_eq_none (fun _ he => (compatible_spec he).1) h

theorem isHangul_iff {c : Nat} : isHangul c = true ↔ 0xAC00 ≤ c ∧ c < 0xD7A4 := by
  rw [isHangul, Bool.and_eq_true, decide_eq_true_eq, decide_eq_true_eq, hangulFirst, hangulCount]

/-- What a decomposed form is like, of which `d` is the first character. It is inert only if it is the character
itself, and another ASCII character only by the table. What follows is beyond ASCII. -/
structure Decomposed (c d : Nat) (ds : List Nat) : Prop where
  beyond : ∀ x ∈ ds, 128 ≤ x
  alone : c < 128 ∨ d ∈ inert → d = c ∧ ds = []
  listed : d = c ∨ 128 ≤ d ∨ ∃ e ∈ decompositions, e / 0x10000000000 = c
  valid : c.isValidChar → ∀ x ∈ d :: ds, x.isValidChar

theorem decomposed_self (c : Nat) : Decomposed c c [] :=
  ⟨by simp, fun _ => ⟨rfl, rfl⟩, .inl rfl, by simp⟩

def decomposition? (c : Nat) : Option Nat :=
  Sorted.find decompositions (fun e => (e / 0x10000000000, e / 0x10000000000)) c

theorem decomposition?_some {c e : Nat} (h : decomposition? c = some e) :
    e ∈ decompositions ∧ e / 0x10000000000 = c := by
  obtain ⟨he, hle, hge⟩ := Sorted.find_some h
  exact ⟨he, Nat.le_antisymm hle hge⟩

-- the equation is found without a look into the table
attribute [local irreducible] decompositions in
theorem decomposeWithin_succ (depth c : Nat) : decomposeWithin (depth + 1) c =
    match decomposition? c with
    | none => [c]
    | some e =>
      if e % 0x100000 = 0 then decomposeWithin depth (e / 0x100000 % 0x100000)
      else decomposeWithin depth (e / 0x100000 % 0x100000) ++ [e % 0x100000] := by
  rfl

/-- A character stands for itself or, by the table, for what its first part stands for, with its second part behind
that if it has one. -/
inductive Expands : Nat → Nat → List Nat → Prop where
  | self (c : Nat) : Expands c c []
  | first {c e d : Nat} {ds : List Nat} : decomposition? c = some e →
      e % 0x100000 = 0 → Expands (e / 0x100000 % 0x100000) d ds → Expands c d ds
  | both {c e d : Nat} {ds : List Nat} : decomposition? c = some e →
      e % 0x100000 ≠ 0 → Expands (e / 0x100000 % 0x100000) d ds → Expands c d (ds ++ [e % 0x100000])

theorem decomposeWithin_expands (depth c : Nat) :
    ∃ d ds, decomposeWithin depth c = d :: ds ∧ Expands c d ds := by
  induction depth generalizing c with
  | zero => exact ⟨c, [], rfl, .self c⟩
  | succ depth ih =>
    rw [decomposeWithin_succ]
    cases hf : decomposition? c with
    | none => exact ⟨c, [], rfl, .self c⟩
    | some e =>
      obtain ⟨d, ds, heq, h⟩ := ih (e / 0x100000 % 0x100000)
      dsimp only
      rw [heq]
      by_cases hs : e % 0x100000 = 0
      · rw [if_pos hs]
        exact ⟨d, ds, rfl, .first hf hs h⟩
      · rw [if_neg hs]
        exact ⟨d, _, rfl, .both hf hs h⟩

theorem expands_of_decompose {c d : Nat} {ds : List Nat} (hc : ¬ isHangul c = true) (h : decompose c = d :: ds) :
    Expands c d ds := by
  rw [decompose, if_neg hc] at h
  obtain ⟨d', ds', heq, he⟩ := decomposeWithin_expands 3 c
  obtain ⟨rfl, rfl⟩ := List.cons.inj (heq.symm.trans h)
  exact he

/-- A first part that is inert would be the first part of the character itself. -/
theorem Decomposed.not_alone {c e d : Nat} {ds : List Nat} (hd : Decomposed (e / 0x100000 % 0x100000) d ds)
    (hf : decomposition? c = some e) : ¬ (c < 128 ∨ d ∈ inert) := by
  obtain ⟨he, rfl⟩ := decomposition?_some hf
  obtain ⟨hbeyond, hinert, -⟩ := decompositions_spec he
  rintro (h | h)
  · exact absurd hbeyond (Nat.not_le.mpr h)
  · exact hinert ((hd.alone (.inr h)).1 ▸ h)

theorem Expands.decomposed {c d : Nat} {ds : List Nat} (h : Expands c d ds) : Decomposed c d ds := by
  induction h with
  | self c => exact decomposed_self c
  | first hf _ _ ih =>
    obtain ⟨he, hc⟩ := decomposition?_some hf
    obtain ⟨-, -, hvalid, -⟩ := decompositions_spec he
    exact ⟨ih.beyond, fun h => absurd h (ih.not_alone hf), .inr (.inr ⟨_, he, hc⟩),
      fun _ => ih.valid hvalid⟩
  | both hf hs _ ih =>
    obtain ⟨he, hc⟩ := decomposition?_some hf
    obtain ⟨-, -, hvalid, hsecond⟩ := decompositions_spec he
    obtain ⟨hs₁, hs₂⟩ := hsecond.resolve_left hs
    refine ⟨?_, fun h => absurd h (ih.not_alone hf), .inr (.inr ⟨_, he, hc⟩), fun _ => ?_⟩
    · exact List.forall_mem_append.mpr ⟨ih.beyond, List.forall_mem_singleton.mpr hs₁⟩
    · rw [← List.cons_append]
      exact List.forall_mem_append.mpr ⟨ih.valid hvalid, List.forall_mem_singleton.mpr hs₂⟩

theorem decomposed_hangul {c d : Nat} {ds : List Nat} (h : isHangul c = true)
    (hd : ∀ x ∈ d :: ds, 0x1100 ≤ x ∧ x < 0x11C3) :
    Decomposed c d ds := by
  obtain ⟨hlo, -⟩ := isHangul_iff.mp h
  have hfirst := hd d List.mem_cons_self
  refine ⟨fun x hx => ?_, fun h => ?_, .inr (.inl (by omega)), fun _ x hx => .inl ?_⟩
  · have := hd x (List.mem_cons_of_mem d hx)
    omega
  · rcases h with h | h
    · omega
    · have := inert_spec d h
      omega
  · have := hd x hx
    omega

theorem decompose_spec (c : Nat) : ∃ d ds, decompose c = d :: ds ∧ Decomposed c d ds := by
  by_cases h : isHangul c = true
  · obtain ⟨hlo, hhi⟩ := isHangul_iff.mp h
    rw [decompose, if_pos h]
    dsimp only
    have hlead : 0x1100 ≤ leadFirst + (c - hangulFirst) / 588 ∧ leadFirst + (c - hangulFirst) / 588 < 0x11C3 := by
      rw [leadFirst, hangulFirst]
      omega
    have hvowel : 0x1100 ≤ vowelFirst + (c - hangulFirst) % 588 / 28 ∧
        vowelFirst + (c - hangulFirst) % 588 / 28 < 0x11C3 := by
      rw [vowelFirst, hangulFirst]
      omega
    have hfinal : 0x1100 ≤ finalBase + (c - hangulFirst) % 28 ∧ finalBase + (c - hangulFirst) % 28 < 0x11C3 := by
      rw [finalBase, hangulFirst]
      omega
    by_cases hr : (c - hangulFirst) % 28 = 0
    · rw [if_pos hr]
      exact ⟨_, _, rfl, decomposed_hangul h (by simp [hlead, hvowel])⟩
    · rw [if_neg hr]
      exact ⟨_, _, rfl, decomposed_hangul h (by simp [hlead, hvowel, hfinal])⟩
  · rw [decompose, if_neg h]
    obtain ⟨d, ds, heq, he⟩ := decomposeWithin_expands 3 c
    exact ⟨d, ds, heq, he.decomposed⟩

theorem decompose_ascii {c : Nat} (h : c < 128) : decompose c = [c] := by
  obtain ⟨d, ds, heq, hd⟩ := decompose_spec c
  obtain ⟨rfl, rfl⟩ := hd.alone (.inl h)
  exact heq

theorem count_decompose {k : Nat} (hk : k ∈ inert) (c : Nat) : (decompose c).count k = [c].count k := by
  obtain ⟨d, ds, heq, hd⟩ := decompose_spec c
  have hds : ds.count k = 0 := by
    refine List.count_eq_zero.mpr fun h => ?_
    have := hd.beyond k h
    have := (inert_spec k hk).2
    omega
  by_cases h : c = k
  · subst h
    rw [decompose_ascii (inert_spec c hk).2]
  · rw [heq, List.count_cons, hds, List.count_singleton]
    by_cases hdk : d = k
    · subst hdk
      exact absurd (hd.alone (.inr hk)).1.symm h
    · simp [hdk, h]

theorem marksAdded_ascii {c : Nat} (h : c < 128) : marksAdded c = 0 := by
  rw [marksAdded, decompose_ascii h, compatibleEntry_ascii h]
  simp [isMark_ascii h]

theorem beyond_of_marksAdded {c : Nat} (h : marksAdded c ≠ 0) : ∀ x ∈ decompose c, 128 ≤ x := by
  obtain ⟨d, ds, heq, hd⟩ := decompose_spec c
  rw [heq]
  refine List.forall_mem_cons.mpr ⟨?_, hd.beyond⟩
  by_contra hlt
  refine h ?_
  rw [marksAdded, heq, List.head?_cons, Option.any_some, isMark_ascii (by omega), if_neg Bool.false_ne_true]
  cases hf : compatibleEntry c with
  | none => rfl
  | some e =>
    obtain ⟨he, hle, hge⟩ := Sorted.find_some hf
    obtain ⟨hbeyond, hplain⟩ := compatible_spec he
    refine if_neg fun hflag => ?_
    rcases hd.listed with rfl | hd' | ⟨e', he', rfl⟩
    · exact hlt (Nat.le_trans hbeyond hle)
    · exact hlt hd'
    · rcases hplain hflag e' he' with h' | h'
      · exact absurd h' (Nat.not_lt.mpr hle)
      · exact absurd h' (Nat.not_lt.mpr hge)

/-! ## Joining -/

theorem composite_spec {a b c : Nat} (h : composite a b = some c) :
    a ∉ 0 :: inert ∧ 128 ≤ b ∧ 128 ≤ c ∧ c.isValidChar := by
  unfold composite at h
  obtain ⟨e, hf, hc⟩ := Option.map_eq_some_iff.mp h
  subst hc
  obtain ⟨he, hle, hge⟩ := Sorted.find_some hf
  obtain ⟨hfirst, hsecond, hthird, hvalid⟩ := composites_spec he
  have hkey : e / 0x100000 = a % 0x10000 * 0x100000 + b % 0x10000 := Nat.le_antisymm hle hge
  have hb : e / 0x100000 % 0x100000 = b % 0x10000 := by omega
  have ha : e / 0x10000000000 = a % 0x10000 := by omega
  refine ⟨fun hmem => ?_, ?_, hthird, hvalid⟩
  · have hlt : a < 128 := by
      rcases List.mem_cons.mp hmem with rfl | hmem
      · decide
      · exact (inert_spec a hmem).2
    rw [ha, Nat.mod_eq_of_lt (by omega)] at hfirst
    exact hfirst hmem
  · have := Nat.mod_le b 0x10000
    omega

theorem syllable_spec {a b c : Nat} (h : syllable a b = some c) : 128 ≤ a ∧ 128 ≤ b ∧ 128 ≤ c ∧ c.isValidChar := by
  simp only [syllable, isLead, isVowel, isFinal, Bool.and_eq_true, beq_iff_eq, decide_eq_true_eq, isHangul_iff] at h
  split_ifs at h with h₁ h₂
  · obtain rfl := Option.some.inj h
    simp only [leadFirst, vowelFirst, hangulFirst] at h₁ ⊢
    refine ⟨by omega, by omega, by omega, .inl (by omega)⟩
  · obtain rfl := Option.some.inj h
    simp only [finalBase, hangulFirst] at h₂ ⊢
    refine ⟨by omega, by omega, by omega, .inl (by omega)⟩

theorem pair_spec {a b c : Nat} (h : syllable a b = some c ∨ composite a b = some c) :
    a ∉ 0 :: inert ∧ 128 ≤ b ∧ 128 ≤ c ∧ c.isValidChar := by
  rcases h with h | h
  · obtain ⟨ha, hrest⟩ := syllable_spec h
    refine ⟨fun hmem => ?_, hrest⟩
    rcases List.mem_cons.mp hmem with rfl | hmem
    · cases ha
    · have := inert_spec a hmem
      omega
  · exact composite_spec h

def Mark.joined (c : Nat) : Mark := ⟨.scalar (Char.ofNat c), 0, false⟩

/-- What a further mark does to the marks of a segment: it comes behind them or is joined to one of them. -/
inductive Joins : List Mark → Mark → List Mark → Prop
  | behind (ms : List Mark) (m : Mark) : Joins ms m (ms ++ [m])
  | joined (before rest : List Mark) (x m : Mark) {c : Nat}
      (h : syllable x.code m.code = some c ∨ composite x.code m.code = some c) :
      Joins (before ++ x :: rest) m (before ++ .joined c :: rest)

/-- The same for one mark after the other. -/
inductive JoinsAll : List Mark → List Mark → List Mark → Prop
  | nil (ms : List Mark) : JoinsAll ms [] ms
  | cons {ms ms' rest out : List Mark} {m : Mark} (h : Joins ms m ms') (hrest : JoinsAll ms' rest out) :
      JoinsAll ms (m :: rest) out

namespace Joint

theorem marks_push (j : Joint) (m : Mark) : (j.push m).marks = j.marks ++ [m] := by
  simp [marks, push]

theorem marks_rebase (j : Joint) : j.rebase.marks = j.marks := by
  unfold rebase
  split
  · rfl
  · next m rest h => simp [marks, h]

theorem joins_joinBy {pair : Nat → Nat → Option Nat} (j : Joint) (m : Mark)
    (h : ∀ a b c, pair a b = some c → syllable a b = some c ∨ composite a b = some c) :
    Joins j.marks m (j.joinBy pair m).marks := by
  have hmarks : (if j.last.rank = 0 then j.rebase else j).marks = j.marks := by
    split
    · exact marks_rebase j
    · rfl
  unfold joinBy
  generalize (if j.last.rank = 0 then j.rebase else j) = j' at hmarks ⊢
  rw [← hmarks]
  dsimp only
  split
  · rw [marks_push]
    exact .behind _ _
  · split
    · next c hc => exact .joined _ _ _ _ (h _ _ _ hc)
    · rw [marks_push]
      exact .behind _ _

theorem joinsAll_joinAll (syllables : Bool) (j : Joint) (ms : List Mark) :
    JoinsAll j.marks ms (joinAll syllables j ms).marks := by
  induction ms generalizing syllables j with
  | nil => exact .nil _
  | cons m ms ih =>
    unfold joinAll
    dsimp only
    split
    · exact .cons (joins_joinBy j m fun _ _ _ => .inl) (ih _ _)
    · split
      · exact .cons (joins_joinBy j m fun _ _ _ => .inr) (ih _ _)
      · refine .cons ?_ (ih _ _)
        rw [marks_push]
        exact .behind _ _

end Joint

/-- The marks of a finished segment, which is held last mark first. -/
def segmentMarks (segment : List Mark) : List Mark :=
  match segment.reverse with
  | [] => []
  | m :: rest => (Joint.joinAll false ⟨[], m, []⟩ rest).marks

theorem segmentBytes_eq (segment : List Mark) :
    segmentBytes segment = (segmentMarks segment).flatMap (·.cell.bytes) := by
  unfold segmentBytes segmentMarks
  cases segment.reverse <;> rfl

theorem joinsAll_segmentMarks (front : List Mark) (m : Mark) :
    JoinsAll [m] front.reverse (segmentMarks (front ++ [m])) := by
  have h := Joint.joinsAll_joinAll false ⟨[], m, []⟩ front.reverse
  rw [segmentMarks, List.reverse_append]
  exact h

/-! ## Sorting -/

theorem insert_perm (m : Mark) (segment : List Mark) : (insert m segment).Perm (m :: segment) := by
  induction segment with
  | nil => exact .refl _
  | cons x rest ih =>
    unfold insert
    split
    · exact (ih.cons x).trans (.swap m x rest)
    · exact .refl _

theorem insert_first {x : Mark} (hx : x.rank = 0) (m : Mark) (front : List Mark) :
    insert m (front ++ [x]) = insert m front ++ [x] := by
  induction front with
  | nil => simp [insert, hx]
  | cons y front ih =>
    rw [List.cons_append, insert, insert, ih]
    split <;> rfl

def insertAll (segment ms : List Mark) : List Mark := ms.foldl (fun s m => insert m s) segment

theorem insertAll_append (segment ms ms' : List Mark) :
    insertAll segment (ms ++ ms') = insertAll (insertAll segment ms) ms' :=
  List.foldl_append

theorem insertAll_perm (segment ms : List Mark) : (insertAll segment ms).Perm (ms ++ segment) := by
  induction ms generalizing segment with
  | nil => exact .refl _
  | cons m ms ih =>
    exact (ih (insert m segment)).trans (((insert_perm m segment).append_left ms).trans List.perm_middle)

theorem insertAll_first {x : Mark} (hx : x.rank = 0) (front ms : List Mark) :
    insertAll (front ++ [x]) ms = insertAll front ms ++ [x] := by
  induction ms generalizing front with
  | nil => rfl
  | cons m ms ih =>
    rw [insertAll, List.foldl_cons, insert_first hx]
    exact ih (insert m front)

/-! ## Cells -/

def added : Utf8.Cell → Nat
  | .scalar c => marksAdded c.toNat
  | .stray _ => 0

def ending : Utf8.Cell → Nat
  | .scalar c => trailingMarks c.toNat
  | .stray _ => 0

theorem added_ascii {c : Char} (h : c.toNat < 128) : added (.scalar c) = 0 := marksAdded_ascii h

theorem composeCells_done (done : List Bytes) (segment : List Mark) (count : Nat) (cells : List Utf8.Cell) :
    composeCells done segment count cells = done.reverse.flatten ++ composeCells [] segment count cells := by
  induction cells generalizing done segment count with
  | nil => simp [composeCells]
  | cons cell rest ih =>
    unfold composeCells
    dsimp only
    split_ifs
    · rw [ih (_ :: done), ih [_]]
      simp
    · rw [ih (_ :: done), ih [_]]
      simp
    · exact ih done _ _

theorem composeCells_nil (segment : List Mark) (count : Nat) :
    composeCells [] segment count [] = segmentBytes segment := by
  simp [composeCells]

/-- A cell that is no mark begins a segment, and so does one that is too much for the open segment. Any other is put
into the open segment. -/
theorem composeCells_cons (segment : List Mark) (count : Nat) (cell : Utf8.Cell) (rest : List Utf8.Cell) :
    composeCells [] segment count (cell :: rest) =
      if added cell = 0 then
        segmentBytes segment ++ composeCells [] (insertAll [] (Mark.ofCell cell)) (ending cell) rest
      else if maxMarks < count + added cell then
        segmentBytes (graphemeJoiner :: segment) ++
        composeCells [] (insertAll [] (Mark.ofCell cell)) (added cell) rest
      else composeCells [] (insertAll segment (Mark.ofCell cell)) (count + added cell) rest := by
  conv_lhs => unfold composeCells
  dsimp only
  rw [composeCells_done [_], composeCells_done [_]]
  simp only [List.reverse_singleton, List.flatten_singleton]
  cases cell <;> rfl

theorem composeCells_append (segment : List Mark) (count : Nat) (front : List Utf8.Cell) {cell : Utf8.Cell}
    (h : added cell = 0) (rest : List Utf8.Cell) : composeCells [] segment count (front ++ cell :: rest) =
      composeCells [] segment count front ++ composeCells [] [] 0 (cell :: rest) := by
  induction front generalizing segment count with
  | nil =>
    rw [List.nil_append, composeCells_cons, composeCells_cons [], if_pos h, if_pos h, composeCells_nil]
    rfl
  | cons x front ih =>
    rw [List.cons_append, composeCells_cons, composeCells_cons]
    split_ifs
    · rw [ih, List.append_assoc]
    · rw [ih, List.append_assoc]
    · exact ih _ _

/-! ## Inert characters -/

section
variable {k : UInt8}

theorem count_encode (hk : k.toNat < 128) (c : Char) :
    (String.utf8EncodeChar c).count k = [c.toNat].count k.toNat := by
  by_cases h : c.toNat = k.toNat
  · have hk' : UInt8.ofNat c.toNat = k := by rw [h, UInt8.ofNat_toNat]
    rw [Utf8.encode_eq, if_pos (by omega), hk', h]
    simp
  · have hzero : k ∉ String.utf8EncodeChar c := fun hmem => h (Utf8.toNat_of_mem_encode hmem hk)
    rw [List.count_eq_zero.mpr hzero, List.count_eq_zero.mpr (by simpa using Ne.symm h)]

theorem count_flatMap_encode (hk : k.toNat < 128) {ds : List Nat} (h : ∀ d ∈ ds, d.isValidChar) :
    (ds.flatMap fun d => String.utf8EncodeChar (Char.ofNat d)).count k = ds.count k.toNat := by
  induction ds with
  | nil => rfl
  | cons d ds ih =>
    obtain ⟨hd, hds⟩ := List.forall_mem_cons.mp h
    rw [List.flatMap_cons, List.count_append, count_encode hk, Utf8.toNat_ofNat hd, ih hds, ← List.count_append]
    rfl

def bytesOf (ms : List Mark) : Bytes := ms.flatMap (·.cell.bytes)

theorem bytesOf_append (ms ms' : List Mark) : bytesOf (ms ++ ms') = bytesOf ms ++ bytesOf ms' := List.flatMap_append

theorem bytesOf_cons (m : Mark) (ms : List Mark) : bytesOf (m :: ms) = m.cell.bytes ++ bytesOf ms :=
  List.flatMap_cons

theorem count_bytesOf_perm {ms ms' : List Mark} (h : ms.Perm ms') : (bytesOf ms).count k = (bytesOf ms').count k :=
  (h.flatMap_right _).count_eq k

theorem count_ofCell (hk : k.toNat ∈ inert) (cell : Utf8.Cell) :
    (bytesOf (Mark.ofCell cell)).count k = cell.bytes.count k := by
  cases cell with
  | stray b => simp [Mark.ofCell, bytesOf, Utf8.Cell.bytes]
  | scalar c =>
    have hlt := (inert_spec _ hk).2
    obtain ⟨d, ds, heq, hd⟩ := decompose_spec c.toNat
    calc (bytesOf (Mark.ofCell (.scalar c))).count k
        = ((decompose c.toNat).flatMap fun d => String.utf8EncodeChar (Char.ofNat d)).count k := by
          rw [Mark.ofCell, bytesOf, List.flatMap_map]
          rfl
      _ = (decompose c.toNat).count k.toNat := count_flatMap_encode hlt (heq ▸ hd.valid c.valid)
      _ = [c.toNat].count k.toNat := count_decompose hk c.toNat
      _ = (String.utf8EncodeChar c).count k := (count_encode hlt c).symm

theorem count_bytes_of_code {m : Mark} (hk : k.toNat < 128) (h : m.code ≠ 0) (hne : m.code ≠ k.toNat) :
    m.cell.bytes.count k = 0 := by
  obtain ⟨cell, rank, joins⟩ := m
  cases cell with
  | stray b => exact absurd rfl h
  | scalar c =>
    refine (count_encode hk c).trans (List.count_eq_zero.mpr ?_)
    simpa [Mark.code] using Ne.symm hne

theorem Joins.count (hk : k.toNat ∈ inert) {ms out : List Mark} {m : Mark} (h : Joins ms m out) :
    (bytesOf out).count k = (bytesOf ms).count k + m.cell.bytes.count k := by
  have hlt := (inert_spec _ hk).2
  cases h with
  | behind =>
    rw [bytesOf_append, List.count_append, bytesOf_cons, List.count_append]
    rfl
  | joined before rest x m hpair =>
    -- neither of the two is inert, nor is what they are joined to
    obtain ⟨hx, hm, hc, hvalid⟩ := pair_spec hpair
    obtain ⟨hx0, hxk⟩ := not_or.mp (List.mem_cons.not.mp hx)
    have hxcount := count_bytes_of_code hlt hx0 fun h => hxk (h ▸ hk)
    have hmcount : m.cell.bytes.count k = 0 := count_bytes_of_code hlt (by omega) (by omega)
    have hccount : (Mark.joined _).cell.bytes.count k = 0 :=
      (count_encode hlt _).trans
        (List.count_eq_zero.mpr (by rw [Utf8.toNat_ofNat hvalid, List.mem_singleton]; omega))
    rw [bytesOf_append, bytesOf_append, bytesOf_cons, bytesOf_cons, List.count_append, List.count_append,
      List.count_append, List.count_append, hxcount, hmcount, hccount]
    rfl

theorem JoinsAll.count (hk : k.toNat ∈ inert) {ms rest out : List Mark} (h : JoinsAll ms rest out) :
    (bytesOf out).count k = (bytesOf ms).count k + (bytesOf rest).count k := by
  induction h with
  | nil => rfl
  | cons h _ ih => rw [ih, h.count hk, bytesOf_cons, List.count_append, Nat.add_assoc]

theorem count_segmentBytes (hk : k.toNat ∈ inert) (segment : List Mark) :
    (segmentBytes segment).count k = (bytesOf segment).count k := by
  rw [segmentBytes_eq]
  rcases List.eq_nil_or_concat segment with rfl | ⟨front, m, rfl⟩
  · rfl
  · rw [List.concat_eq_append]
    refine ((joinsAll_segmentMarks front m).count hk).trans ?_
    rw [count_bytesOf_perm front.reverse_perm, bytesOf_append, List.count_append, Nat.add_comm]

theorem count_composeCells (hk : k.toNat ∈ inert) (segment : List Mark) (n : Nat) (cells : List Utf8.Cell) :
    (composeCells [] segment n cells).count k =
      (bytesOf segment).count k + (cells.flatMap Utf8.Cell.bytes).count k := by
  have hput (segment : List Mark) (cell : Utf8.Cell) : (bytesOf (insertAll segment (Mark.ofCell cell))).count k =
      (bytesOf segment).count k + cell.bytes.count k := by
    rw [count_bytesOf_perm (insertAll_perm _ _), bytesOf_append, List.count_append, count_ofCell hk, Nat.add_comm]
  have hjoiner : graphemeJoiner.cell.bytes.count k = 0 :=
    count_bytes_of_code (inert_spec _ hk).2 (by decide)
    (Nat.ne_of_gt (Nat.lt_trans (inert_spec _ hk).2 (by decide)))
  induction cells generalizing segment n with
  | nil => rw [composeCells_nil, count_segmentBytes hk]; rfl
  | cons cell rest ih =>
    rw [composeCells_cons, List.flatMap_cons, List.count_append]
    split_ifs
    · rw [List.count_append, count_segmentBytes hk, ih, hput]
      simp [bytesOf]
    · rw [List.count_append, count_segmentBytes hk, ih, hput, bytesOf_cons, List.count_append, hjoiner]
      simp [bytesOf]
    · rw [ih, hput, Nat.add_assoc]

end

/-! ## ASCII characters -/

def Mark.Beyond (m : Mark) : Prop := ∃ c : Char, m.cell = .scalar c ∧ 128 ≤ c.toNat

def Mark.Plain (m : Mark) : Prop := ∃ c : Char, m.cell = .scalar c ∧ c.toNat < 128

theorem rank_ofCode (n : Nat) : (Mark.ofCode n).rank = combiningClass n := by
  unfold Mark.ofCode
  dsimp only

theorem beyond_ofCode {n : Nat} (h : 128 ≤ n) (hvalid : n.isValidChar) : (Mark.ofCode n).Beyond :=
  ⟨_, rfl, by rwa [Utf8.toNat_ofNat hvalid]⟩

theorem beyond_joined {a b c : Nat} (h : syllable a b = some c ∨ composite a b = some c) : (Mark.joined c).Beyond :=
  ⟨_, rfl, by rw [Utf8.toNat_ofNat (pair_spec h).2.2.2]; exact (pair_spec h).2.2.1⟩

theorem beyond_graphemeJoiner : graphemeJoiner.Beyond := ⟨_, rfl, by decide⟩

theorem Mark.Beyond.bytes {m : Mark} (h : m.Beyond) : ∀ b ∈ m.cell.bytes, 128 ≤ b.toNat := by
  obtain ⟨c, hcell, hc⟩ := h
  rw [hcell]
  intro b hb
  by_contra hlt
  have := Utf8.toNat_of_mem_encode hb (by omega)
  omega

theorem Mark.Beyond.bytes_ne {m : Mark} (h : m.Beyond) {b : UInt8} (hb : b.toNat < 128) : m.cell.bytes ≠ [b] := by
  intro heq
  have := h.bytes b (by simp [heq])
  omega

theorem bytesOf_beyond {ms : List Mark} (h : ∀ m ∈ ms, m.Beyond) : ∀ b ∈ bytesOf ms, 128 ≤ b.toNat := by
  intro b hb
  obtain ⟨m, hm, hb⟩ := List.mem_flatMap.mp hb
  exact (h m hm).bytes b hb

/-- Marks are joined to characters beyond ASCII, so that an ASCII character can be the first only, and it was
before. -/
theorem Joins.beyond {x m : Mark} {xs out : List Mark} (h : Joins (x :: xs) m out) (hxs : ∀ m ∈ xs, m.Beyond)
    (hm : m.Beyond) : ∃ y ys, out = y :: ys ∧ (y = x ∨ y.Beyond) ∧ ∀ m ∈ ys, m.Beyond := by
  generalize hms : x :: xs = ms at h
  cases h with
  | behind =>
    subst hms
    exact ⟨x, xs ++ [m], rfl, .inl rfl, List.forall_mem_append.mpr ⟨hxs, List.forall_mem_singleton.mpr hm⟩⟩
  | joined before rest y _ hpair =>
    cases before with
    | nil =>
      obtain ⟨rfl, rfl⟩ := List.cons.inj hms
      exact ⟨_, _, rfl, .inr (beyond_joined hpair), hxs⟩
    | cons z before =>
      obtain ⟨rfl, rfl⟩ := List.cons.inj hms
      obtain ⟨hbefore, hrest⟩ := List.forall_mem_append.mp hxs
      exact ⟨_, _, rfl, .inl rfl,
        List.forall_mem_append.mpr ⟨hbefore,
          List.forall_mem_cons.mpr ⟨beyond_joined hpair, fun m hm => hrest m (.tail _ hm)⟩⟩⟩

theorem JoinsAll.beyond {x : Mark} {xs rest out : List Mark} (h : JoinsAll (x :: xs) rest out)
    (hxs : ∀ m ∈ xs, m.Beyond) (hrest : ∀ m ∈ rest, m.Beyond) :
    ∃ y ys, out = y :: ys ∧ (y = x ∨ y.Beyond) ∧ ∀ m ∈ ys, m.Beyond := by
  generalize hms : x :: xs = ms at h
  induction h generalizing x xs with
  | nil => exact ⟨x, xs, hms.symm, .inl rfl, hxs⟩
  | cons h _ ih =>
    subst hms
    obtain ⟨hm, hrest⟩ := List.forall_mem_cons.mp hrest
    obtain ⟨y, ys, rfl, hy, hys⟩ := h.beyond hxs hm
    obtain ⟨z, zs, rfl, hz, hzs⟩ := ih hys hrest rfl
    refine ⟨z, zs, rfl, ?_, hzs⟩
    rcases hz with rfl | hz
    · exact hy
    · exact .inr hz

/-- A segment of which the first mark alone may be an ASCII character. -/
def Led (segment : List Mark) : Prop :=
  segment = [] ∨ ∃ front m, segment = front ++ [m] ∧ (∀ x ∈ front, x.Beyond) ∧ (m.Beyond ∨ m.Plain ∧ m.rank = 0)

theorem led_of_beyond {segment : List Mark} (h : ∀ m ∈ segment, m.Beyond) : Led segment := by
  rcases List.eq_nil_or_concat segment with rfl | ⟨front, m, rfl⟩
  · exact .inl rfl
  · rw [List.concat_eq_append] at h ⊢
    obtain ⟨hfront, hm⟩ := List.forall_mem_append.mp h
    exact .inr ⟨front, m, rfl, hfront, .inl (hm m (by simp))⟩

theorem Led.cons {segment : List Mark} (h : Led segment) {m : Mark} (hm : m.Beyond) : Led (m :: segment) := by
  rcases h with rfl | ⟨front, x, rfl, hfront, hx⟩
  · exact led_of_beyond (by simpa using hm)
  · exact .inr ⟨m :: front, x, rfl, List.forall_mem_cons.mpr ⟨hm, hfront⟩, hx⟩

theorem Led.insertAll {segment : List Mark} (h : Led segment) {ms : List Mark} (hms : ∀ m ∈ ms, m.Beyond) :
    Led (insertAll segment ms) := by
  rcases h with rfl | ⟨front, x, rfl, hfront, hx | ⟨hx, hrank⟩⟩
  · exact led_of_beyond fun m hm => hms m (by simpa using (insertAll_perm [] ms).mem_iff.mp hm)
  · refine led_of_beyond fun m hm => ?_
    rcases List.mem_append.mp ((insertAll_perm _ ms).mem_iff.mp hm) with hm | hm
    · exact hms m hm
    · rcases List.mem_append.mp hm with hm | hm
      · exact hfront m hm
      · rwa [List.mem_singleton.mp hm]
  · refine .inr ⟨_, x, insertAll_first hrank front ms, fun m hm => ?_, .inr ⟨hx, hrank⟩⟩
    rcases List.mem_append.mp ((insertAll_perm front ms).mem_iff.mp hm) with hm | hm
    · exact hms m hm
    · exact hfront m hm

theorem ofCell_beyond {c : Char} (h : added (.scalar c) ≠ 0) : ∀ m ∈ Mark.ofCell (.scalar c), m.Beyond := by
  intro m hm
  obtain ⟨d, hd, rfl⟩ := List.mem_map.mp hm
  obtain ⟨first, rest, heq, hspec⟩ := decompose_spec c.toNat
  exact beyond_ofCode (beyond_of_marksAdded h d hd) (hspec.valid c.valid d (heq ▸ hd))

theorem led_ofCell (c : Char) : Led (insertAll [] (Mark.ofCell (.scalar c))) := by
  obtain ⟨d, ds, heq, hd⟩ := decompose_spec c.toNat
  have hvalid := hd.valid c.valid
  rw [Mark.ofCell, heq, List.map_cons]
  have hfirst : Led [Mark.ofCode d] := by
    refine .inr ⟨[], _, rfl, by simp, ?_⟩
    by_cases hlt : d < 128
    · exact .inr ⟨⟨_, rfl, by rwa [Utf8.toNat_ofNat (hvalid d (by simp))]⟩,
        (rank_ofCode d).trans (combiningClass_ascii hlt)⟩
    · exact .inl (beyond_ofCode (Nat.le_of_not_lt hlt) (hvalid d (by simp)))
  refine hfirst.insertAll fun m hm => ?_
  obtain ⟨x, hx, rfl⟩ := List.mem_map.mp hm
  exact beyond_ofCode (hd.beyond x hx) (hvalid x (.tail _ hx))

theorem Led.segmentBytes_cut {segment : List Mark} (h : Led segment) {b : UInt8} (hb : b.toNat < 128)
    {front rest : Bytes} (heq : segmentBytes segment = front ++ b :: rest) :
    front = [] ∧ ∃ m ∈ segment, m.cell.bytes = [b] := by
  rcases h with rfl | ⟨ms, m, rfl, hms, hm⟩
  · simp [segmentBytes] at heq
  · obtain ⟨y, ys, hmarks, hy, hys⟩ := (joinsAll_segmentMarks ms m).beyond (by simp) fun x hx =>
      hms x (List.mem_reverse.mp hx)
    rw [segmentBytes_eq, hmarks] at heq
    have hmem : b ∈ bytesOf (y :: ys) := by
      rw [bytesOf, heq]
      simp
    have hnot : ¬ y.Beyond := fun h => by
      have := bytesOf_beyond (List.forall_mem_cons.mpr ⟨h, hys⟩) b hmem
      omega
    obtain rfl := hy.resolve_right hnot
    obtain ⟨⟨c, hcell, hc⟩, -⟩ := hm.resolve_left hnot
    have hbytes : y.cell.bytes = [UInt8.ofNat c.toNat] := by rw [hcell]; exact Utf8.encode_ascii hc
    rw [List.flatMap_cons, hbytes] at heq
    cases front with
    | nil => exact ⟨rfl, y, by simp, (List.cons.inj heq).1 ▸ hbytes⟩
    | cons a front =>
      -- behind the first byte there are bytes beyond ASCII only
      have htail : bytesOf ys = front ++ b :: rest := (List.cons.inj heq).2
      have := bytesOf_beyond hys b (by simp [htail])
      omega

theorem cut_append {a x front rest : Bytes} {b : UInt8} (h : a ++ x = front ++ b :: rest) :
    (∃ rest', a = front ++ b :: rest') ∨ ∃ front', front = a ++ front' ∧ x = front' ++ b :: rest := by
  rcases List.append_eq_append_iff.mp h with ⟨front', rfl, hx⟩ | ⟨y, rfl, hy⟩
  · exact .inr ⟨front', rfl, hx⟩
  · cases y with
    | nil => exact .inr ⟨[], by simp, hy.symm⟩
    | cons z y =>
      obtain ⟨rfl, -⟩ := List.cons.inj hy
      exact .inl ⟨y, rfl⟩

/-- An ASCII byte of what cells are composed to begins the open segment, or a segment that one of the cells
begins. -/
theorem composeCells_cut {segment : List Mark} (h : Led segment) (n : Nat) (cs : List Char) {b : UInt8}
    (hb : b.toNat < 128) {front rest : Bytes}
    (heq : composeCells [] segment n (cs.map .scalar) = front ++ b :: rest) :
    (front = [] ∧ ∃ m ∈ segment, m.cell.bytes = [b]) ∨
    ∃ before c behind, cs = before ++ c :: behind ∧ added (.scalar c) = 0 ∧
      composeCells [] segment n (before.map .scalar) = front ∧
      composeCells [] [] 0 ((c :: behind).map .scalar) = b :: rest := by
  induction cs generalizing segment n front with
  | nil =>
    rw [List.map_nil, composeCells_nil] at heq
    exact .inl (h.segmentBytes_cut hb heq)
  | cons c cs ih =>
    rw [List.map_cons, composeCells_cons] at heq
    split_ifs at heq with hstart hmax
    · rcases cut_append heq with ⟨rest', hin⟩ | ⟨front', rfl, hbehind⟩
      · exact .inl (h.segmentBytes_cut hb hin)
      · rcases ih (led_ofCell c) _ hbehind with ⟨rfl, -⟩ | ⟨before, d, behind, rfl, hd, hfront, hrest⟩
        · refine .inr ⟨[], c, cs, rfl, hstart, ?_, ?_⟩
          · rw [List.map_nil, composeCells_nil, List.append_nil]
          · rw [List.map_cons, composeCells_cons, if_pos hstart]
            exact hbehind
        · refine .inr ⟨c :: before, d, behind, rfl, hd, ?_, hrest⟩
          rw [List.map_cons, composeCells_cons, if_pos hstart, hfront]
    · rcases cut_append heq with ⟨rest', hin⟩ | ⟨front', rfl, hbehind⟩
      · obtain ⟨hfront, m, hm, hbytes⟩ := (h.cons beyond_graphemeJoiner).segmentBytes_cut hb hin
        refine .inl ⟨hfront, m, (List.mem_cons.mp hm).resolve_left ?_, hbytes⟩
        rintro rfl
        exact beyond_graphemeJoiner.bytes_ne hb hbytes
      · rcases ih (led_ofCell c) _ hbehind with ⟨-, m, hm, hbytes⟩ | ⟨before, d, behind, rfl, hd, hfront, hrest⟩
        · have hm := (insertAll_perm _ _).mem_iff.mp hm
          rw [List.append_nil] at hm
          exact absurd hbytes ((ofCell_beyond hstart m hm).bytes_ne hb)
        · refine .inr ⟨c :: before, d, behind, rfl, hd, ?_, hrest⟩
          rw [List.map_cons, composeCells_cons, if_neg hstart, if_pos hmax, hfront]
    · rcases ih (h.insertAll (ofCell_beyond hstart)) _ heq with
        ⟨hfront, m, hm, hbytes⟩ | ⟨before, d, behind, rfl, hd, hfront, hrest⟩
      · refine .inl ⟨hfront, m, (List.mem_append.mp ((insertAll_perm _ _).mem_iff.mp hm)).resolve_left fun hm => ?_,
          hbytes⟩
        exact (ofCell_beyond hstart m hm).bytes_ne hb hbytes
      · refine .inr ⟨c :: before, d, behind, rfl, hd, ?_, hrest⟩
        rw [List.map_cons, composeCells_cons, if_neg hstart, if_neg hmax, hfront]

/-! ## Texts -/

theorem compose_ascii {text : Bytes} (h : ∀ b ∈ text, b.toNat < 128) : compose text = text :=
  if_pos (List.all_eq_true.mpr fun b hb => decide_eq_true (UInt8.lt_iff_toNat_lt.mpr (h b hb)))

theorem wholeCells_encodeAll (acc : List Utf8.Cell) (cs : List Char) :
    wholeCells acc (Utf8.encodeAll cs) = ((cs.map .scalar).reverse ++ acc, []) := by
  induction cs generalizing acc with
  | nil =>
    unfold wholeCells
    rfl
  | cons c cs ih =>
    have hpos := Utf8.length_encode_pos c
    have hdecode := Utf8.decode_encode c (Utf8.encodeAll cs)
    rw [Utf8.encodeAll_cons]
    revert hpos hdecode
    cases String.utf8EncodeChar c with
    | nil => exact fun hpos => absurd hpos (Nat.lt_irrefl 0)
    | cons b bytes =>
      intro _ hdecode
      rw [List.cons_append] at hdecode ⊢
      obtain ⟨least, ha, -, -⟩ := Utf8.decode_cons_iff.mp hdecode
      unfold wholeCells
      rw [ha]
      dsimp only
      rw [hdecode, if_pos (by simp)]
      simp [ih]

theorem segmentBytes_ascii {c : Char} (h : c.toNat < 128) :
    segmentBytes (insertAll [] (Mark.ofCell (.scalar c))) = String.utf8EncodeChar c := by
  rw [Mark.ofCell, decompose_ascii h]
  simp [insertAll, insert, segmentBytes, Joint.joinAll, Joint.marks, Mark.ofCode, Utf8.Cell.bytes, Char.ofNat_toNat]

theorem composeCells_ascii (segment : List Mark) (n : Nat) {cs : List Char} (h : ∀ c ∈ cs, c.toNat < 128) :
    composeCells [] segment n (cs.map .scalar) = segmentBytes segment ++ Utf8.encodeAll cs := by
  induction cs generalizing segment n with
  | nil => rw [List.map_nil, composeCells_nil, Utf8.encodeAll_nil, List.append_nil]
  | cons c cs ih =>
    obtain ⟨hc, hcs⟩ := List.forall_mem_cons.mp h
    rw [List.map_cons, composeCells_cons, if_pos (added_ascii hc), ih _ _ hcs, segmentBytes_ascii hc,
      Utf8.encodeAll_cons]

theorem compose_encodeAll (cs : List Char) :
    compose (Utf8.encodeAll cs) = composeCells [] [] 0 (cs.map .scalar) := by
  unfold compose
  split
  · next h =>
    have hcs : ∀ c ∈ cs, c.toNat < 128 := by
      intro c hc
      obtain ⟨b, hb⟩ := List.exists_mem_of_length_pos (Utf8.length_encode_pos c)
      have hlt : b.toNat < 128 := by
        simpa [isAscii, UInt8.lt_iff_toNat_lt] using List.all_eq_true.mp h b (List.mem_flatMap.mpr ⟨c, hc, hb⟩)
      rwa [Utf8.toNat_of_mem_encode hb hlt]
    rw [composeCells_ascii [] 0 hcs]
    rfl
  · rw [wholeCells_encodeAll]
    simp

theorem count_compose {k : UInt8} (hk : k.toNat ∈ inert) (cs : List Char) :
    (compose (Utf8.encodeAll cs)).count k = (Utf8.encodeAll cs).count k := by
  rw [compose_encodeAll, count_composeCells hk, List.flatMap_map]
  simp [bytesOf, Utf8.encodeAll, Utf8.Cell.bytes]

theorem compose_append (cs : List Char) {c : Char} (h : added (.scalar c) = 0) (ds : List Char) :
    compose (Utf8.encodeAll (cs ++ c :: ds)) =
      compose (Utf8.encodeAll cs) ++ compose (Utf8.encodeAll (c :: ds)) := by
  rw [compose_encodeAll, compose_encodeAll, compose_encodeAll, List.map_append, List.map_cons]
  exact composeCells_append [] 0 _ h _

/-- In front of an ASCII byte of a composed text stands the composed form of a part of the text. -/
theorem compose_cut {cs : List Char} {b : UInt8} (hb : b.toNat < 128) {front rest : Bytes}
    (h : compose (Utf8.encodeAll cs) = front ++ b :: rest) : ∃ before behind, cs = before ++ behind ∧
      compose (Utf8.encodeAll before) = front ∧ compose (Utf8.encodeAll behind) = b :: rest := by
  rw [compose_encodeAll] at h
  rcases composeCells_cut (.inl rfl) 0 cs hb h with ⟨-, m, hm, -⟩ | ⟨before, c, behind, rfl, -, hfront, hrest⟩
  · cases hm
  · exact ⟨before, c :: behind, rfl, by rw [compose_encodeAll, hfront], by rw [compose_encodeAll, hrest]⟩

theorem compose_inert {c : Char} (h : c.toNat ∈ inert) (cs : List Char) :
    ∃ rest, compose (Utf8.encodeAll (c :: cs)) = UInt8.ofNat c.toNat :: rest := by
  have hlt := (inert_spec _ h).2
  have hk : (UInt8.ofNat c.toNat).toNat = c.toNat := UInt8.toNat_ofNat_of_lt (show _ < 256 by omega)
  have hin : (UInt8.ofNat c.toNat).toNat ∈ inert := hk.symm ▸ h
  have hmem : UInt8.ofNat c.toNat ∈ compose (Utf8.encodeAll (c :: cs)) := by
    rw [← List.count_pos_iff, count_compose hin, List.count_pos_iff, Utf8.encodeAll_cons, Utf8.encode_ascii hlt]
    simp
  -- in front of the first such character of the composed form there is none
  obtain ⟨front, rest, heq, hfront⟩ := List.eq_append_cons_of_mem hmem
  obtain ⟨before, behind, hcs, rfl, -⟩ := compose_cut (hk.symm ▸ hlt) heq
  rw [← List.count_eq_zero, count_compose hin, List.count_eq_zero] at hfront
  cases before with
  | nil => exact ⟨rest, heq⟩
  | cons d before =>
    obtain ⟨rfl, -⟩ := List.cons.inj hcs
    rw [Utf8.encodeAll_cons, Utf8.encode_ascii hlt] at hfront
    exact absurd List.mem_cons_self hfront

end Canonical

end RegCode.Text
