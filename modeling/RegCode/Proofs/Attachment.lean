import RegCode.Proofs.Composition

/-!
# Attached marks

A character that is decomposed to an ASCII character and marks is composed again: the first of the marks stays in
front of all that could keep it from the ASCII character, and the two have a composite. So an ASCII character at the
beginning of a composed text was a character of its own, and the text can also be cut behind it.
-/

namespace RegCode.Text.Canonical

/-! ## Tables -/

def singles : List Nat := [0x37E, 0x1FEF, 0x212A]

/-- The second of the two is joined to the first wherever it meets it. -/
def Attaches (a b : Nat) : Prop := combiningClass b ≠ 0 ∧ joins b = true ∧ (composite a b).isSome = true

instance (a b : Nat) : Decidable (Attaches a b) := inferInstanceAs (Decidable (_ ∧ _ ∧ _))

theorem decompositions_attach {e : Nat} (he : e ∈ decompositions) : e / 0x100000 % 0x100000 ∉ singles ∧
    (128 ≤ e / 0x100000 % 0x100000 ∨ if e % 0x100000 = 0 then e / 0x10000000000 ∈ singles
      else Attaches (e / 0x100000 % 0x100000) (e % 0x100000)) := by
  have h := forall_mem_of_all decompositions (fun e => !singles.contains (e / 0x100000 % 0x100000) &&
    (Nat.ble 128 (e / 0x100000 % 0x100000) || if e % 0x100000 = 0 then singles.contains (e / 0x10000000000)
      else decide (Attaches (e / 0x100000 % 0x100000) (e % 0x100000)))) (by decide +kernel) he
  simp only [Bool.and_eq_true, Bool.or_eq_true, Bool.not_eq_true', Nat.ble_eq, Bool.ite_eq_true_distrib,
    decide_eq_true_eq, List.contains_eq_mem, decide_eq_false_iff_not] at h
  exact h

theorem classes_attach {e : Nat} (he : e ∈ classes) : e / 0x100 % 0x100000 < 0x1161 ∨ 0x11C3 ≤ e / 0x10000000 := by
  simpa using forall_mem_of_all classes (fun e => Nat.blt (e / 0x100 % 0x100000) 0x1161 ||
    Nat.ble 0x11C3 (e / 0x10000000)) (by decide +kernel) he

theorem not_vowel_final {c : Nat} (h : combiningClass c ≠ 0) : (isVowel c || isFinal c) = false := by
  unfold combiningClass at h
  cases hf : Sorted.find classes (fun e => (e / 0x10000000, e / 0x100 % 0x100000)) c with
  | none => exact absurd (by rw [hf]) h
  | some e =>
    obtain ⟨he, hle, hge⟩ := Sorted.find_some hf
    rw [Bool.eq_false_iff, isVowel, isFinal]
    simp only [ne_eq, Bool.or_eq_true, Bool.and_eq_true, decide_eq_true_eq]
    rw [vowelFirst, finalBase]
    rcases classes_attach he with h' | h'
    · omega
    · omega

/-! ## Decomposed forms -/

theorem Expands.attached {c d : Nat} {ds : List Nat} (h : Expands c d ds) (hd : d < 128) :
    ds = [] ∧ (c = d ∨ c ∈ singles) ∨ ∃ s rest, ds = s :: rest ∧ Attaches d s := by
  induction h with
  | self c => exact .inl ⟨rfl, .inl rfl⟩
  | first hf hs _ ih =>
    obtain ⟨he, rfl⟩ := decomposition?_some hf
    obtain ⟨hsingle, hattach⟩ := decompositions_attach he
    rw [if_pos hs] at hattach
    rcases ih hd with ⟨hnil, hself⟩ | hattached
    · have hfirst := hself.resolve_right hsingle
      exact .inl ⟨hnil, .inr (hattach.resolve_left (by omega))⟩
    · exact .inr hattached
  | both hf hs _ ih =>
    obtain ⟨hsingle, hattach⟩ := decompositions_attach (decomposition?_some hf).1
    rw [if_neg hs] at hattach
    rcases ih hd with ⟨rfl, hself⟩ | ⟨s, rest, rfl, hattached⟩
    · have hfirst := hself.resolve_right hsingle
      exact .inr ⟨_, [], rfl, hfirst ▸ hattach.resolve_left (by omega)⟩
    · exact .inr ⟨s, rest ++ _, rfl, hattached⟩

theorem decompose_hangul {c d : Nat} {ds : List Nat} (hc : isHangul c = true) (h : decompose c = d :: ds) :
    leadFirst + (c - hangulFirst) / 588 = d := by
  rw [decompose, if_pos hc] at h
  dsimp only at h
  split at h
  · exact (List.cons.inj h).1
  · exact (List.cons.inj h).1

theorem isLead_of_isHangul {c : Nat} (hc : isHangul c = true) :
    isLead (leadFirst + (c - hangulFirst) / 588) = true := by
  obtain ⟨hlo, hhi⟩ := isHangul_iff.mp hc
  rw [isLead, Bool.and_eq_true, decide_eq_true_eq, decide_eq_true_eq, hangulFirst]
  omega

theorem decompose_attached {c d : Nat} {ds : List Nat} (h : decompose c = d :: ds) (hd : d < 128) :
    ds = [] ∧ (c = d ∨ c ∈ singles) ∨ ∃ s rest, ds = s :: rest ∧ Attaches d s := by
  by_cases hc : isHangul c = true
  · have hlead := decompose_hangul hc h
    rw [leadFirst] at hlead
    omega
  · exact (expands_of_decompose hc h).attached hd

theorem trailingMarks_single {c d : Nat} (h : decompose c = [d]) (hd : d < 128) (hc : c = d ∨ c ∈ singles) :
    trailingMarks c = 0 := by
  have hhangul : ¬ isHangul c = true := by
    intro hhangul
    have hlead := decompose_hangul hhangul h
    rw [leadFirst] at hlead
    omega
  have hentry : compatibleEntry c = none := by
    rcases hc with rfl | hc
    · exact compatibleEntry_ascii hd
    · have hsingles : ∀ c ∈ singles, compatibleEntry c = none := by decide +kernel
      exact hsingles c hc
  rw [trailingMarks, if_neg hhangul, hentry, h]
  simp [isMark_ascii hd]

/-! ## Joining -/

def Mark.Ranked (m : Mark) : Prop := m.rank ≠ 0 → (isVowel m.code || isFinal m.code) = false

def Mark.AttachesTo (x m : Mark) : Prop := m.rank ≠ 0 ∧ m.joins = true ∧ (composite x.code m.code).isSome = true

namespace Joint

section
variable {j : Joint} {f : Nat → Nat → Option Nat} {m : Mark}

theorem joinBy_starter (hbase : j.base.rank = 0) (hbehind : ∀ p ∈ j.behind, p.rank ≠ 0)
    (f : Nat → Nat → Option Nat) (m : Mark) : j.joinBy f m = if j.blocks m then j.push m
      else match f j.base.code m.code with
        | some c => { j with base := .joined c }
        | none => j.push m := by
  have hsame : (if j.last.rank = 0 then j.rebase else j) = j := by
    obtain ⟨before, base, behind⟩ := j
    cases behind with
    | nil => simp [last, rebase]
    | cons p behind => exact if_neg (hbehind p List.mem_cons_self)
  unfold joinBy
  rw [hsame]
  rfl

theorem joinBy_cases (hbase : j.base.rank = 0) (hbehind : ∀ p ∈ j.behind, p.rank ≠ 0) : j.joinBy f m = j.push m ∨
    ∃ c, f j.base.code m.code = some c ∧ j.joinBy f m = ⟨j.before, .joined c, j.behind⟩ := by
  rw [joinBy_starter hbase hbehind]
  split
  · exact .inl rfl
  · cases hc : f j.base.code m.code with
    | none => exact .inl rfl
    | some c => exact .inr ⟨c, rfl, rfl⟩

theorem joinBy_some (hbase : j.base.rank = 0) (hbehind : ∀ p ∈ j.behind, p.rank ≠ 0 ∧ p.rank < m.rank) {c : Nat}
    (hc : f j.base.code m.code = some c) : j.joinBy f m = ⟨j.before, .joined c, j.behind⟩ := by
  have hfree : j.blocks m = false := by
    obtain ⟨before, base, behind⟩ := j
    cases behind with
    | nil => rfl
    | cons p behind => simpa [blocks, last] using (hbehind p List.mem_cons_self).2
  rw [joinBy_starter hbase fun p hp => (hbehind p hp).1, hfree, hc]
  rfl

end

theorem joinAll_beyond {j : Joint} (hbefore : j.before = []) (hbase : j.base.Beyond)
    (hbehind : ∀ p ∈ j.behind, p.Beyond) {ms : List Mark} (hms : ∀ p ∈ ms, p.Beyond) (syllables : Bool) :
    ∃ y ys, (joinAll syllables j ms).marks = y :: ys ∧ y.Beyond := by
  have h := joinsAll_joinAll syllables j ms
  rw [marks, hbefore] at h
  obtain ⟨y, ys, heq, hy, -⟩ := h.beyond (fun p hp => hbehind p (List.mem_reverse.mp hp)) hms
  refine ⟨y, ys, heq, ?_⟩
  rcases hy with rfl | hy
  · exact hbase
  · exact hy

theorem joinAll_ranked (j : Joint) {m : Mark} (h : m.Ranked) (hrank : m.rank ≠ 0) (rest : List Mark) :
    joinAll false j (m :: rest) = joinAll false (if m.joins then j.joinBy composite m else j.push m) rest := by
  conv_lhs => unfold joinAll
  dsimp only
  rw [h hrank, Bool.or_self, if_neg Bool.false_ne_true]
  by_cases hj : m.joins = true
  · rw [if_pos hj, if_pos hj]
  · rw [if_neg hj, if_neg hj]

theorem joinAll_attached {x m : Mark} (hx : x.rank = 0) (hm : x.AttachesTo m) {pre post behind : List Mark}
    (hbelow : ∀ p ∈ behind ++ pre, p.rank ≠ 0 ∧ p.rank < m.rank)
    (hbeyond : ∀ p ∈ behind ++ (pre ++ m :: post), p.Beyond)
    (hranked : ∀ p ∈ pre ++ [m], p.Ranked) :
    ∃ y ys, (joinAll false ⟨[], x, behind⟩ (pre ++ m :: post)).marks = y :: ys ∧ y.Beyond := by
  obtain ⟨hrank, hjoins, hpair⟩ := hm
  induction pre generalizing behind with
  | nil =>
    obtain ⟨hbb, hbm⟩ := List.forall_mem_append.mp hbeyond
    obtain ⟨c, hc⟩ := Option.isSome_iff_exists.mp hpair
    rw [List.append_nil] at hbelow
    rw [List.nil_append, joinAll_ranked _ (hranked m (by simp)) hrank, if_pos hjoins,
      joinBy_some (j := ⟨[], x, behind⟩) (f := composite) hx hbelow hc]
    exact joinAll_beyond rfl (beyond_joined (.inr hc)) hbb (fun p hp => hbm p (.tail _ hp)) _
  | cons p pre ih =>
    -- where the mark comes behind the starter, the starter is as it was
    have hpush : ∃ y ys, (joinAll false (push ⟨[], x, behind⟩ p) (pre ++ m :: post)).marks = y :: ys ∧ y.Beyond :=
      ih (fun q hq => hbelow q (List.perm_middle.mem_iff.mpr hq))
        (fun q hq => hbeyond q (List.perm_middle.mem_iff.mpr hq)) fun q hq => hranked q (.tail _ hq)
    rw [List.cons_append, joinAll_ranked _ (hranked p (by simp)) (hbelow p (by simp)).1]
    by_cases hj : p.joins = true
    · rw [if_pos hj]
      rcases joinBy_cases (j := ⟨[], x, behind⟩) (f := composite) (m := p) hx
        fun q hq => (hbelow q (List.mem_append_left _ hq)).1 with heq | ⟨c, hc, heq⟩
      · rw [heq]
        exact hpush
      · rw [heq]
        refine joinAll_beyond rfl (beyond_joined (.inr hc)) (fun q hq => hbeyond q ?_) (fun q hq => hbeyond q ?_) _
        · exact List.mem_append_left _ hq
        · exact List.mem_append_right _ (.tail _ hq)
    · rw [if_neg hj]
      exact hpush

end Joint

/-! ## Segments -/

/-- A further mark leaves `m` at its place: what comes between `m` and the starter has a lower combining class. -/
theorem insert_below {x m : Mark} (hx : x.rank = 0) {pre : List Mark}
    (hpre : ∀ p ∈ pre, p.rank ≠ 0 ∧ p.rank < m.rank) (post : List Mark) (q : Mark) :
    ∃ pre' post', insert q (post ++ m :: (pre ++ [x])) = post' ++ m :: (pre' ++ [x]) ∧
      (∀ p ∈ pre', p.rank ≠ 0 ∧ p.rank < m.rank) ∧ (post' ++ pre').Perm (q :: (post ++ pre)) := by
  induction post with
  | nil =>
    rw [List.nil_append, insert]
    split
    · next hq =>
      refine ⟨insert q pre, [], by rw [insert_first hx]; rfl, fun p hp => ?_, insert_perm q pre⟩
      rcases List.mem_cons.mp ((insert_perm q pre).mem_iff.mp hp) with rfl | hp
      · exact hq
      · exact hpre p hp
    · exact ⟨pre, [q], rfl, hpre, .refl _⟩
  | cons y post ih =>
    rw [List.cons_append, insert]
    split
    · obtain ⟨pre', post', heq, hpre', hperm⟩ := ih
      exact ⟨pre', y :: post', by rw [heq]; rfl, hpre', (hperm.cons y).trans (.swap q y _)⟩
    · exact ⟨pre, q :: y :: post, rfl, hpre, .refl _⟩

/-- A segment, held last mark first, that begins with a starter, and in which a mark that is attached to it meets
it. -/
def Attached (segment : List Mark) : Prop :=
  ∃ x m pre post, segment = post ++ m :: (pre ++ [x]) ∧ x.rank = 0 ∧ x.AttachesTo m ∧
    (∀ p ∈ pre, p.rank ≠ 0 ∧ p.rank < m.rank) ∧ ∀ p ∈ m :: (post ++ pre), p.Beyond ∧ p.Ranked

theorem Attached.insertAll {segment : List Mark} (h : Attached segment) {ms : List Mark}
    (hms : ∀ p ∈ ms, p.Beyond ∧ p.Ranked) : Attached (insertAll segment ms) := by
  induction ms generalizing segment with
  | nil => exact h
  | cons q ms ih =>
    obtain ⟨hq, hms⟩ := List.forall_mem_cons.mp hms
    refine ih ?_ hms
    obtain ⟨x, m, pre, post, rfl, hx, hm, hpre, hall⟩ := h
    obtain ⟨hallm, hall⟩ := List.forall_mem_cons.mp hall
    obtain ⟨pre', post', heq, hpre', hperm⟩ := insert_below hx hpre post q
    refine ⟨x, m, pre', post', heq, hx, hm, hpre', List.forall_mem_cons.mpr ⟨hallm, fun p hp => ?_⟩⟩
    rcases List.mem_cons.mp (hperm.mem_iff.mp hp) with rfl | hp
    · exact hq
    · exact hall p hp

def Covered (segment : List Mark) : Prop := (segment ≠ [] ∧ ∀ m ∈ segment, m.Beyond) ∨ Attached segment

theorem Covered.insertAll {segment : List Mark} (h : Covered segment) {ms : List Mark}
    (hms : ∀ p ∈ ms, p.Beyond ∧ p.Ranked) : Covered (insertAll segment ms) := by
  refine h.imp ?_ fun h => h.insertAll hms
  rintro ⟨hne, hall⟩
  have hperm := insertAll_perm segment ms
  refine ⟨fun hnil => hne ?_, fun m hm => ?_⟩
  · have := hperm.length_eq
    rw [hnil, List.length_append, List.length_nil] at this
    exact List.length_eq_zero_iff.mp (by omega)
  · rcases List.mem_append.mp (hperm.mem_iff.mp hm) with hm | hm
    · exact (hms m hm).1
    · exact hall m hm

theorem ranked_graphemeJoiner : graphemeJoiner.Ranked := fun h => absurd rfl h

theorem Covered.joiner {segment : List Mark} (h : Covered segment) : Covered (graphemeJoiner :: segment) := by
  refine h.imp ?_ ?_
  · rintro ⟨-, hall⟩
    exact ⟨List.cons_ne_nil _ _, List.forall_mem_cons.mpr ⟨beyond_graphemeJoiner, hall⟩⟩
  · rintro ⟨x, m, pre, post, rfl, hx, hm, hpre, hall⟩
    obtain ⟨hallm, hall⟩ := List.forall_mem_cons.mp hall
    refine ⟨x, m, pre, graphemeJoiner :: post, rfl, hx, hm, hpre, ?_⟩
    exact List.forall_mem_cons.mpr ⟨hallm,
      List.forall_mem_cons.mpr ⟨⟨beyond_graphemeJoiner, ranked_graphemeJoiner⟩, hall⟩⟩

theorem Covered.segmentMarks {segment : List Mark} (h : Covered segment) :
    ∃ y ys, segmentMarks segment = y :: ys ∧ y.Beyond := by
  rcases h with ⟨hne, hall⟩ | ⟨x, m, pre, post, rfl, hx, hm, hpre, hall⟩
  · obtain ⟨front, x, rfl⟩ := (List.eq_nil_or_concat' segment).resolve_left hne
    obtain ⟨hfront, hx⟩ := List.forall_mem_append.mp hall
    obtain ⟨y, ys, heq, hy, -⟩ := (joinsAll_segmentMarks front x).beyond (by simp) fun m hm =>
      hfront m (List.mem_reverse.mp hm)
    refine ⟨y, ys, heq, ?_⟩
    rcases hy with rfl | hy
    · exact hx y (by simp)
    · exact hy
  · have hreverse : (post ++ m :: (pre ++ [x])).reverse = x :: (pre.reverse ++ m :: post.reverse) := by simp
    rw [Canonical.segmentMarks, hreverse]
    have hmem {p : Mark} (hp : p ∈ pre.reverse ++ m :: post.reverse) : p ∈ m :: (post ++ pre) := by
      simpa [or_comm, or_left_comm] using hp
    refine Joint.joinAll_attached hx hm ?_ ?_ fun p hp => (hall p (hmem ?_)).2
    · exact fun p hp => hpre p (List.mem_reverse.mp hp)
    · exact fun p hp => (hall p (hmem hp)).1
    · rcases List.mem_append.mp hp with hp | hp
      · exact List.mem_append_left _ hp
      · exact List.mem_append_right _ (List.mem_singleton.mp hp ▸ List.mem_cons_self)

theorem Mark.Beyond.head {y : Mark} (h : y.Beyond) : ∃ b bytes, y.cell.bytes = b :: bytes ∧ 128 ≤ b.toNat := by
  have hbeyond := h.bytes
  obtain ⟨c, hcell, -⟩ := h
  obtain ⟨b, bytes, hbytes⟩ := List.exists_cons_of_length_pos (Utf8.length_encode_pos c)
  have hy : y.cell.bytes = b :: bytes := by rw [hcell]; exact hbytes
  exact ⟨b, bytes, hy, hbeyond b (by simp [hy])⟩

/-! ## Characters -/

theorem code_ofCode {n : Nat} (h : n.isValidChar) : (Mark.ofCode n).code = n := Utf8.toNat_ofNat h

theorem attachesTo_ofCode {d s : Nat} (hd : d.isValidChar) (hs : s.isValidChar) (h : Attaches d s) :
    (Mark.ofCode d).AttachesTo (Mark.ofCode s) := by
  unfold Mark.AttachesTo
  rw [rank_ofCode, code_ofCode hd, code_ofCode hs]
  exact h

theorem ranked_ofCell (c : Char) : ∀ m ∈ Mark.ofCell (.scalar c), m.Ranked := by
  intro m hm hrank
  obtain ⟨n, hn, rfl⟩ := List.mem_map.mp hm
  obtain ⟨d, ds, heq, hd⟩ := decompose_spec c.toNat
  rw [rank_ofCode] at hrank
  rw [code_ofCode (hd.valid c.valid n (heq ▸ hn))]
  exact not_vowel_final hrank

theorem covered_ofCell (c : Char) :
    (∃ d, d < 128 ∧ Mark.ofCell (.scalar c) = [Mark.ofCode d] ∧ ending (.scalar c) = 0) ∨
      Covered (insertAll [] (Mark.ofCell (.scalar c))) := by
  obtain ⟨d, ds, heq, hd⟩ := decompose_spec c.toNat
  have hvalid := hd.valid c.valid
  have hbeyond : ∀ m ∈ ds.map Mark.ofCode, m.Beyond := by
    intro m hm
    obtain ⟨n, hn, rfl⟩ := List.mem_map.mp hm
    exact beyond_ofCode (hd.beyond n hn) (hvalid n (.tail _ hn))
  have hranked := ranked_ofCell c
  rw [Mark.ofCell, heq, List.map_cons] at hranked ⊢
  obtain ⟨-, hranked⟩ := List.forall_mem_cons.mp hranked
  by_cases hlt : d < 128
  · rcases decompose_attached heq hlt with ⟨rfl, hc⟩ | ⟨s, rest, rfl, hattaches⟩
    · exact .inl ⟨d, hlt, rfl, trailingMarks_single heq hlt hc⟩
    · have hx : (Mark.ofCode d).rank = 0 := (rank_ofCode d).trans (combiningClass_ascii hlt)
      have hm := attachesTo_ofCode (hvalid d (by simp)) (hvalid s (by simp)) hattaches
      rw [List.map_cons] at hbeyond hranked ⊢
      obtain ⟨hb, hbeyond⟩ := List.forall_mem_cons.mp hbeyond
      obtain ⟨hr, hranked⟩ := List.forall_mem_cons.mp hranked
      have hattached : Attached (insertAll [] [Mark.ofCode d, Mark.ofCode s]) := by
        refine ⟨Mark.ofCode d, Mark.ofCode s, [], [], ?_, hx, hm, by simp, by simpa using ⟨hb, hr⟩⟩
        simp [insertAll, insert, hx]
      have hall := hattached.insertAll fun p hp => ⟨hbeyond p hp, hranked p hp⟩
      rw [← insertAll_append] at hall
      exact .inr (.inr hall)
  · refine .inr (.inl ⟨fun hnil => ?_, fun m hm => ?_⟩)
    · have := (insertAll_perm [] (Mark.ofCode d :: ds.map Mark.ofCode)).length_eq
      rw [hnil] at this
      simp at this
    · have hm := (insertAll_perm [] (Mark.ofCode d :: ds.map Mark.ofCode)).mem_iff.mp hm
      rw [List.append_nil] at hm
      rcases List.mem_cons.mp hm with rfl | hm
      · exact beyond_ofCode (Nat.le_of_not_lt hlt) (hvalid d (by simp))
      · exact hbeyond m hm

/-! ## Firsts of composites -/

/-- A mark that has the low sixteen bits of a Greek letter, so that it is taken for the first of its composites. -/
def kawiKiller : Nat := 0x11F41

/-- Whether the code points of a run are no ASCII characters, leading consonants or syllables. -/
def runApart (first last : Nat) : Bool :=
  Nat.ble 0x300 first && Nat.blt last 0x20000 &&
    (Nat.blt last 0x1100 || Nat.ble 0x1113 first && Nat.blt last 0xAC00 || Nat.ble 0xD7A4 first)

theorem marks_checked :
    (classes.toList.all fun e => runApart (e / 0x10000000) (e / 0x100 % 0x100000)) = true ∧
    (joining.toList.all fun e => runApart (e / 0x100000) (e % 0x100000)) = true ∧
    (compatible.toList.all fun e => !(e / 0x10 % 0x10 == 1) ||
      runApart (e / 0x10000000) (e / 0x100 % 0x100000) && composites.toList.all fun k =>
        [k / 0x10000000000, k / 0x10000000000 + 0x10000].all fun a =>
          Nat.blt a (e / 0x10000000) || Nat.blt (e / 0x100 % 0x100000) a) = true ∧
    (composites.toList.all fun e => !(e / 0x10000000000 == 0x34F) &&
      ((Nat.blt (e / 0x10000000000) 0x300 || !isMark (e / 0x10000000000)) &&
        (!isMark (e / 0x10000000000 + 0x10000) || e / 0x10000000000 + 0x10000 == kawiKiller))) = true ∧
    (decompositions.toList.all fun e =>
      (Nat.ble 0x300 (e / 0x10000000000) || Nat.blt (e / 0x100000 % 0x100000) 0x300) &&
      (!(e / 0x100000 % 0x100000 == kawiKiller) && !(e % 0x100000 == kawiKiller)) &&
      (e % 0x100000 == 0 || Nat.blt (e / 0x100000 % 0x100000) 0x300 || isMark (e % 0x100000) ||
        !isMark (e / 0x100000 % 0x100000) && (decomposition? (e / 0x100000 % 0x100000)).isNone)) = true := by
  decide +kernel

structure Apart (n : Nat) : Prop where
  low : 0x300 ≤ n
  high : n < 0x20000
  lead : isLead n = false
  hangul : isHangul n = false

theorem apart_of_run {first last n : Nat} (h : runApart first last = true) (hfirst : first ≤ n) (hlast : n ≤ last) :
    Apart n := by
  simp only [runApart, Bool.and_eq_true, Bool.or_eq_true, Nat.ble_eq, Nat.blt_eq] at h
  refine ⟨by omega, by omega, ?_, ?_⟩
  · rw [Bool.eq_false_iff, isLead, leadFirst]
    simp only [ne_eq, Bool.and_eq_true, decide_eq_true_eq]
    omega
  · rw [Bool.eq_false_iff, ne_eq, isHangul_iff]
    omega

theorem apart_of_isMark {n : Nat} (h : isMark n = true) : Apart n := by
  obtain ⟨hclasses, hjoining, -⟩ := marks_checked
  rw [isMark, Bool.or_eq_true, bne_iff_ne] at h
  rcases h with h | h
  · unfold combiningClass at h
    cases hf : Sorted.find classes (fun e => (e / 0x10000000, e / 0x100 % 0x100000)) n with
    | none => exact absurd (by rw [hf]) h
    | some e =>
      obtain ⟨he, hle, hge⟩ := Sorted.find_some hf
      exact apart_of_run (forall_mem_of_all _ _ hclasses he) hle hge
  · rw [joins, Bool.or_eq_true, Bool.or_eq_true] at h
    rcases h with (h | h) | h
    · rw [isVowel, Bool.and_eq_true, decide_eq_true_eq, decide_eq_true_eq, vowelFirst] at h
      exact apart_of_run (show runApart 0x1161 0x1175 = true by decide) h.1 (by omega)
    · rw [isFinal, Bool.and_eq_true, decide_eq_true_eq, decide_eq_true_eq, finalBase] at h
      exact apart_of_run (show runApart 0x11A8 0x11C2 = true by decide) (by omega) (by omega)
    · obtain ⟨e, hf⟩ := Option.isSome_iff_exists.mp h
      obtain ⟨he, hle, hge⟩ := Sorted.find_some hf
      exact apart_of_run (forall_mem_of_all _ _ hjoining he) hle hge

def Trails (n : Nat) : Prop := ∀ m c, ¬ (syllable n m = some c ∨ composite n m = some c)

theorem trails_of_apart {n : Nat} (h : Apart n)
    (hfirst : ∀ e ∈ composites, n ≠ e / 0x10000000000 ∧ n ≠ e / 0x10000000000 + 0x10000) : Trails n := by
  rintro m c (hc | hc)
  · rw [syllable, h.lead, h.hangul] at hc
    simp at hc
  · unfold composite at hc
    obtain ⟨e, hf, -⟩ := Option.map_eq_some_iff.mp hc
    obtain ⟨he, hle, hge⟩ := Sorted.find_some hf
    obtain ⟨hne, hne'⟩ := hfirst e he
    have := h.high
    omega

theorem composites_marks {e : Nat} (he : e ∈ composites) : e / 0x10000000000 ≠ 0x34F ∧
    (e / 0x10000000000 < 0x300 ∨ isMark (e / 0x10000000000) = false) ∧
    (isMark (e / 0x10000000000 + 0x10000) = false ∨ e / 0x10000000000 + 0x10000 = kawiKiller) := by
  have h := forall_mem_of_all _ _ marks_checked.2.2.2.1 he
  simp only [Bool.and_eq_true, Bool.or_eq_true, Nat.blt_eq, Bool.not_eq_true', beq_iff_eq, beq_eq_false_iff_ne] at h
  exact h

theorem trails_of_isMark {n : Nat} (h : isMark n = true) (hk : n ≠ kawiKiller) : Trails n := by
  have hapart := apart_of_isMark h
  refine trails_of_apart hapart fun e he => ?_
  obtain ⟨-, hplain, hmark⟩ := composites_marks he
  constructor
  · rintro rfl
    rcases hplain with hlow | hplain
    · exact absurd hapart.low (Nat.not_le.mpr hlow)
    · rw [h] at hplain
      cases hplain
  · rintro rfl
    rcases hmark with hplain | hkiller
    · rw [h] at hplain
      cases hplain
    · exact hk hkiller

theorem not_isMark_of_lt {n : Nat} (h : n < 0x300) : isMark n = false := by
  rw [Bool.eq_false_iff]
  intro hmark
  exact absurd (apart_of_isMark hmark).low (Nat.not_le.mpr h)

theorem decompositions_marks {e : Nat} (he : e ∈ decompositions) :
    (0x300 ≤ e / 0x10000000000 ∨ e / 0x100000 % 0x100000 < 0x300) ∧
    (e / 0x100000 % 0x100000 ≠ kawiKiller ∧ e % 0x100000 ≠ kawiKiller) ∧
    (((e % 0x100000 = 0 ∨ e / 0x100000 % 0x100000 < 0x300) ∨ isMark (e % 0x100000) = true) ∨
      isMark (e / 0x100000 % 0x100000) = false ∧ decomposition? (e / 0x100000 % 0x100000) = none) := by
  have h := forall_mem_of_all _ _ marks_checked.2.2.2.2 he
  simp only [Bool.and_eq_true, Bool.or_eq_true, Nat.ble_eq, Nat.blt_eq, Bool.not_eq_true', beq_iff_eq,
    beq_eq_false_iff_ne, Option.isNone_iff_eq_none] at h
  exact ⟨h.1.1, h.1.2, h.2⟩

theorem Expands.low {c d : Nat} {ds : List Nat} (h : Expands c d ds) (hc : c < 0x300) : d < 0x300 := by
  induction h with
  | self c => exact hc
  | first hf _ _ ih =>
    obtain ⟨he, rfl⟩ := decomposition?_some hf
    exact ih ((decompositions_marks he).1.resolve_left (Nat.not_le.mpr hc))
  | both hf _ _ ih =>
    obtain ⟨he, rfl⟩ := decomposition?_some hf
    exact ih ((decompositions_marks he).1.resolve_left (Nat.not_le.mpr hc))

theorem Expands.eq_self {c d : Nat} {ds : List Nat} (h : Expands c d ds) (hnone : decomposition? c = none) :
    d = c := by
  cases h with
  | self => rfl
  | first hf => exact absurd (hf.symm.trans hnone) (Option.some_ne_none _)
  | both hf => exact absurd (hf.symm.trans hnone) (Option.some_ne_none _)

theorem Expands.isMark_second {e d : Nat} {ds : List Nat} (he : e ∈ decompositions) (hs : e % 0x100000 ≠ 0)
    (h : Expands (e / 0x100000 % 0x100000) d ds) (hd : isMark d = true) : isMark (e % 0x100000) = true := by
  rcases (decompositions_marks he).2.2 with ((hzero | hlow) | hlast) | ⟨hplain, hnone⟩
  · exact absurd hzero hs
  · rw [not_isMark_of_lt (h.low hlow)] at hd
    cases hd
  · exact hlast
  · rw [h.eq_self hnone, hplain] at hd
    cases hd

theorem Expands.marks {c d : Nat} {ds : List Nat} (h : Expands c d ds) (hd : isMark d = true) :
    ∀ x ∈ d :: ds, isMark x = true ∧ (x = c ∨ x ≠ kawiKiller) := by
  have hparts {e : Nat} {xs : List Nat} (he : e ∈ decompositions)
      (ih : ∀ x ∈ xs, isMark x = true ∧ (x = e / 0x100000 % 0x100000 ∨ x ≠ kawiKiller)) {c : Nat} :
      ∀ x ∈ xs, isMark x = true ∧ (x = c ∨ x ≠ kawiKiller) := by
    intro x hx
    obtain ⟨hmark, hself⟩ := ih x hx
    exact ⟨hmark, .inr (hself.elim (fun hself => hself ▸ (decompositions_marks he).2.1.1) id)⟩
  induction h with
  | self c => simpa using hd
  | first hf _ _ ih => exact hparts (decomposition?_some hf).1 (ih hd)
  | both hf hs hfirst ih =>
    have he := (decomposition?_some hf).1
    rw [← List.cons_append]
    refine List.forall_mem_append.mpr ⟨hparts he (ih hd), ?_⟩
    exact List.forall_mem_singleton.mpr ⟨hfirst.isMark_second he hs hd, .inr (decompositions_marks he).2.1.2⟩

/-- What only lengthens a segment is decomposed to marks that nothing is joined to, with one exception. -/
theorem trails_decompose {c : Nat} (h : marksAdded c ≠ 0) (hk : c ≠ kawiKiller) : ∀ x ∈ decompose c, Trails x := by
  obtain ⟨d, ds, heq, hd⟩ := decompose_spec c
  by_cases hmark : isMark d = true
  · have hhangul : ¬ isHangul c = true := by
      intro hc
      have hlead := (apart_of_isMark hmark).lead
      rw [← decompose_hangul hc heq, isLead_of_isHangul hc] at hlead
      cases hlead
    intro x hx
    obtain ⟨hx, hself⟩ := (expands_of_decompose hhangul heq).marks hmark x (heq ▸ hx)
    exact trails_of_isMark hx (hself.elim (fun hself => hself ▸ hk) id)
  · rw [marksAdded, heq, List.head?_cons, Option.any_some, if_neg hmark] at h
    cases hf : compatibleEntry c with
    | none =>
      rw [hf] at h
      exact absurd rfl h
    | some e =>
      rw [hf] at h
      dsimp only at h
      have hflag : e / 0x10 % 0x10 = 1 := by
        by_contra hne
        rw [if_neg hne] at h
        exact h rfl
      obtain ⟨he, hle, hge⟩ := Sorted.find_some hf
      have hcheck := forall_mem_of_all _ _ marks_checked.2.2.1 he
      simp only [Bool.or_eq_true, Bool.not_eq_true', beq_eq_false_iff_ne, Bool.and_eq_true] at hcheck
      obtain ⟨hrun, hfirsts⟩ := hcheck.resolve_left (absurd hflag)
      have hapart := apart_of_run hrun hle hge
      have hnone : decomposition? c = none := by
        rw [← Option.not_isSome_iff_eq_none, Option.isSome_iff_exists]
        rintro ⟨e', hf'⟩
        obtain ⟨he', hc⟩ := decomposition?_some hf'
        have := (compatible_spec he).2 hflag e' he'
        omega
      have hself : decompose c = [c] := by
        rw [decompose, hapart.hangul, if_neg Bool.false_ne_true, decomposeWithin_succ, hnone]
      rw [hself, List.forall_mem_singleton]
      refine trails_of_apart hapart fun k hk => ?_
      have hfirst := List.all_eq_true.mp hfirsts k (Array.mem_toList_iff.mpr hk)
      simp only [List.all_cons, List.all_nil, Bool.and_eq_true, Bool.or_eq_true, Nat.blt_eq] at hfirst
      omega

/-! ## Behind an ASCII character -/

def Mark.Trails (m : Mark) : Prop := Canonical.Trails m.code

theorem trails_graphemeJoiner : graphemeJoiner.Trails := by
  have hapart : Apart 0x34F :=
    apart_of_run (show runApart 0x34F 0x34F = true by decide) (Nat.le_refl _) (Nat.le_refl _)
  have hcode : graphemeJoiner.code = 0x34F := rfl
  rw [Mark.Trails, hcode]
  refine trails_of_apart hapart fun e he => ⟨(composites_marks he).1.symm, ?_⟩
  omega

theorem trails_ofCell {c : Char} (h : added (.scalar c) ≠ 0) (hk : c.toNat ≠ kawiKiller) :
    ∀ m ∈ Mark.ofCell (.scalar c), m.Trails := by
  intro m hm
  obtain ⟨x, hx, rfl⟩ := List.mem_map.mp hm
  obtain ⟨d, ds, heq, hd⟩ := decompose_spec c.toNat
  rw [Mark.Trails, code_ofCode (hd.valid c.valid x (heq ▸ hx))]
  exact trails_decompose h hk x hx

theorem Joins.trails {ms out : List Mark} {m : Mark} (h : Joins ms m out) (hms : ∀ x ∈ ms, x.Trails) :
    out = ms ++ [m] := by
  cases h with
  | behind => rfl
  | joined before rest x m hpair => exact absurd hpair (hms x (by simp) _ _)

theorem JoinsAll.trails {ms rest out : List Mark} (h : JoinsAll ms rest out) (hms : ∀ x ∈ ms ++ rest, x.Trails) :
    out = ms ++ rest := by
  induction h with
  | nil => rw [List.append_nil]
  | @cons ms ms' rest out m h _ ih =>
    obtain ⟨hms', hrest⟩ := List.forall_mem_append.mp hms
    obtain rfl := h.trails hms'
    rw [ih (by simpa [List.append_assoc] using hms), List.append_assoc]
    rfl

/-- Behind an ASCII character nothing is joined, unless it is joined to that character. -/
theorem JoinsAll.first {x : Mark} {xs rest out : List Mark} (h : JoinsAll (x :: xs) rest out)
    (hxs : ∀ m ∈ xs ++ rest, m.Beyond ∧ m.Trails) : out = x :: (xs ++ rest) ∨ ∃ y ys, out = y :: ys ∧ y.Beyond := by
  generalize hms : x :: xs = ms at h
  induction h generalizing xs with
  | nil => exact .inl (by rw [← hms, List.append_nil])
  | @cons ms ms' rest out m h hrest ih =>
    subst hms
    generalize hms : x :: xs = ms at h
    cases h with
    | behind =>
      subst hms
      have hall : ∀ p ∈ (xs ++ [m]) ++ rest, p.Beyond ∧ p.Trails := by simpa [List.append_assoc] using hxs
      simpa [List.append_assoc] using ih hall rfl
    | joined before rest' y _ hpair =>
      cases before with
      | nil =>
        obtain ⟨rfl, rfl⟩ := List.cons.inj hms
        obtain ⟨hbehind, hrest'⟩ := List.forall_mem_append.mp hxs
        obtain ⟨y, ys, rfl, hy, -⟩ := hrest.beyond (fun m hm => (hbehind m hm).1) fun m hm =>
          (hrest' m (.tail _ hm)).1
        refine .inr ⟨y, ys, rfl, ?_⟩
        rcases hy with rfl | hy
        · exact beyond_joined hpair
        · exact hy
      | cons z before =>
        obtain ⟨rfl, rfl⟩ := List.cons.inj hms
        exact absurd hpair ((hxs y (by simp)).2 _ _)

theorem segmentBytes_trails {segment : List Mark} (h : ∀ m ∈ segment, m.Trails) :
    segmentBytes segment = bytesOf segment.reverse := by
  rcases List.eq_nil_or_concat' segment with rfl | ⟨front, m, rfl⟩
  · rfl
  · rw [segmentBytes_eq, (joinsAll_segmentMarks front m).trails, List.reverse_append]
    · rfl
    · intro x hx
      exact h x (by simpa [or_comm] using hx)

theorem segmentBytes_first (x : Mark) {front : List Mark} (h : ∀ m ∈ front, m.Beyond ∧ m.Trails) :
    segmentBytes (front ++ [x]) = x.cell.bytes ++ segmentBytes front ∨
      ∃ b rest, segmentBytes (front ++ [x]) = b :: rest ∧ 128 ≤ b.toNat := by
  rw [segmentBytes_trails fun m hm => (h m hm).2, segmentBytes_eq (front ++ [x])]
  have hall : ∀ m ∈ [] ++ front.reverse, m.Beyond ∧ m.Trails := fun m hm => h m (by simpa using hm)
  rcases (joinsAll_segmentMarks front x).first hall with heq | ⟨y, ys, heq, hy⟩
  · rw [heq]
    exact .inl rfl
  · obtain ⟨b, bytes, hbytes, hb⟩ := hy.head
    rw [heq, List.flatMap_cons, hbytes]
    exact .inr ⟨b, _, rfl, hb⟩

/-- Marks that are no more than that come behind an ASCII character as they come alone, unless one of them is joined
to it. -/
theorem composeCells_first {x : Mark} (hx : x.rank = 0) {front : List Mark}
    (hfront : ∀ m ∈ front, m.Beyond ∧ m.Trails) (n : Nat) {cs : List Char}
    (hk : ∀ c ∈ cs.takeWhile fun c => added (.scalar c) ≠ 0, c.toNat ≠ kawiKiller) :
    composeCells [] (front ++ [x]) n (cs.map .scalar) = x.cell.bytes ++ composeCells [] front n (cs.map .scalar) ∨
      ∃ b rest, composeCells [] (front ++ [x]) n (cs.map .scalar) = b :: rest ∧ 128 ≤ b.toNat := by
  -- what follows a finished segment is the same in both
  have hfinished {segment : List Mark} (h : ∀ m ∈ segment, m.Beyond ∧ m.Trails) (more : Bytes) :
      segmentBytes (segment ++ [x]) ++ more = x.cell.bytes ++ (segmentBytes segment ++ more) ∨
        ∃ b rest, segmentBytes (segment ++ [x]) ++ more = b :: rest ∧ 128 ≤ b.toNat := by
    rcases segmentBytes_first x h with heq | ⟨b, rest, heq, hb⟩
    · exact .inl (by rw [heq, List.append_assoc])
    · exact .inr ⟨b, rest ++ more, by rw [heq, List.cons_append], hb⟩
  induction cs generalizing front n with
  | nil =>
    rw [List.map_nil, composeCells_nil, composeCells_nil]
    exact segmentBytes_first x hfront
  | cons c cs ih =>
    rw [List.map_cons, composeCells_cons, composeCells_cons front]
    split_ifs with hstart hmax
    · exact hfinished hfront _
    · rw [← List.cons_append]
      exact hfinished (List.forall_mem_cons.mpr ⟨⟨beyond_graphemeJoiner, trails_graphemeJoiner⟩, hfront⟩) _
    · rw [List.takeWhile_cons, if_pos (by simpa using hstart), List.forall_mem_cons] at hk
      rw [insertAll_first hx]
      refine ih (fun m hm => ?_) _ hk.2
      rcases List.mem_append.mp ((insertAll_perm _ _).mem_iff.mp hm) with hm | hm
      · exact ⟨ofCell_beyond hstart m hm, trails_ofCell hstart hk.1 m hm⟩
      · exact hfront m hm

/-! ## Texts -/

structure Kept (P : List Mark → Prop) : Prop where
  insertAll {segment ms : List Mark} : P segment → (∀ p ∈ ms, p.Beyond ∧ p.Ranked) → P (insertAll segment ms)
  joiner {segment : List Mark} : P segment → P (graphemeJoiner :: segment)

theorem kept_covered : Kept Covered := ⟨fun h hms => h.insertAll hms, fun h => h.joiner⟩

theorem kept_first {x : Mark} (hx : x.rank = 0) :
    Kept fun segment => ∃ front, segment = front ++ [x] ∧ ∀ p ∈ front, p.Beyond where
  insertAll := by
    rintro _ ms ⟨front, rfl, hfront⟩ hms
    refine ⟨_, insertAll_first hx front ms, fun p hp => ?_⟩
    rcases List.mem_append.mp ((insertAll_perm front ms).mem_iff.mp hp) with hp | hp
    · exact (hms p hp).1
    · exact hfront p hp
  joiner := by
    rintro _ ⟨front, rfl, hfront⟩
    exact ⟨graphemeJoiner :: front, rfl, List.forall_mem_cons.mpr ⟨beyond_graphemeJoiner, hfront⟩⟩

theorem Kept.composeCells {P : List Mark → Prop} (h : Kept P) {segment : List Mark} (hP : P segment) (n : Nat)
    (cs : List Char) : ∃ segment' more, P segment' ∧
      composeCells [] segment n (cs.map .scalar) = segmentBytes segment' ++ more := by
  induction cs generalizing segment n with
  | nil => exact ⟨segment, [], hP, by rw [List.map_nil, composeCells_nil, List.append_nil]⟩
  | cons c cs ih =>
    rw [List.map_cons, composeCells_cons]
    split_ifs with hstart
    · exact ⟨segment, _, hP, rfl⟩
    · exact ⟨_, _, h.joiner hP, rfl⟩
    · exact ih (h.insertAll hP fun m hm => ⟨ofCell_beyond hstart m hm, ranked_ofCell c m hm⟩) _

theorem Covered.segmentBytes {segment : List Mark} (h : Covered segment) :
    ∃ b rest, segmentBytes segment = b :: rest ∧ 128 ≤ b.toNat := by
  obtain ⟨y, ys, hmarks, hy⟩ := h.segmentMarks
  obtain ⟨b, bytes, hbytes, hb⟩ := hy.head
  exact ⟨b, _, by rw [segmentBytes_eq, hmarks, List.flatMap_cons, hbytes, List.cons_append], hb⟩

theorem compose_covered {c : Char} (h : Covered (insertAll [] (Mark.ofCell (.scalar c)))) (cs : List Char) :
    ∃ b rest, compose (Utf8.encodeAll (c :: cs)) = b :: rest ∧ 128 ≤ b.toNat := by
  have hcells (n : Nat) : ∃ b rest,
      composeCells [] (insertAll [] (Mark.ofCell (.scalar c))) n (cs.map .scalar) = b :: rest ∧
      128 ≤ b.toNat := by
    obtain ⟨segment, more, hsegment, heq⟩ := kept_covered.composeCells h n cs
    obtain ⟨b, rest, hbytes, hb⟩ := hsegment.segmentBytes
    exact ⟨b, _, by rw [heq, hbytes, List.cons_append], hb⟩
  rw [compose_encodeAll, List.map_cons, composeCells_cons]
  split_ifs
  · exact hcells _
  · have hjoiner : Covered [graphemeJoiner] := .inl ⟨by simp, by simpa using beyond_graphemeJoiner⟩
    obtain ⟨b, rest, hbytes, hb⟩ := hjoiner.segmentBytes
    exact ⟨b, _, by rw [hbytes, List.cons_append], hb⟩
  · exact hcells _

theorem single_spec {c : Char} {d : Nat} (hd : d < 128) (h : Mark.ofCell (.scalar c) = [Mark.ofCode d]) :
    (Mark.ofCode d).rank = 0 ∧ (Mark.ofCode d).cell.bytes = [UInt8.ofNat d] ∧ added (.scalar c) = 0 := by
  have hbytes : (Mark.ofCode d).cell.bytes = [UInt8.ofNat d] := by
    have hcode : (Char.ofNat d).toNat = d := Utf8.toNat_ofNat (.inl (by omega))
    have hascii := Utf8.encode_ascii (c := Char.ofNat d) (by omega)
    rw [hcode] at hascii
    exact hascii
  refine ⟨(rank_ofCode d).trans (combiningClass_ascii hd), hbytes, ?_⟩
  by_contra hne
  have hbeyond := (ofCell_beyond hne (Mark.ofCode d) (by simp [h])).bytes (UInt8.ofNat d) (by simp [hbytes])
  rw [UInt8.toNat_ofNat_of_lt' (show d < 256 by omega)] at hbeyond
  omega

theorem compose_cons_single {c : Char} {d : Nat} (hd : d < 128) (h : Mark.ofCell (.scalar c) = [Mark.ofCode d])
    (cs : List Char) : compose (Utf8.encodeAll (c :: cs)) =
      composeCells [] [Mark.ofCode d] (ending (.scalar c)) (cs.map .scalar) := by
  rw [compose_encodeAll, List.map_cons, composeCells_cons, if_pos (single_spec hd h).2.2, h]
  rfl

/-- A character that is decomposed to an ASCII character is composed to it, alone as well as in front of others,
unless it is joined to something beyond ASCII. -/
theorem compose_single {c : Char} {d : Nat} (hd : d < 128) (h : Mark.ofCell (.scalar c) = [Mark.ofCode d])
    (cs : List Char) : compose (Utf8.encodeAll [c]) = [UInt8.ofNat d] ∧
      ∃ b rest, compose (Utf8.encodeAll (c :: cs)) = b :: rest ∧ (b = UInt8.ofNat d ∨ 128 ≤ b.toNat) := by
  obtain ⟨hx, hbytes, -⟩ := single_spec hd h
  constructor
  · rw [compose_cons_single hd h, List.map_nil, composeCells_nil, segmentBytes_eq [Mark.ofCode d]]
    simp [segmentMarks, Joint.joinAll, Joint.marks, hbytes]
  · have hopen : ∃ front, [Mark.ofCode d] = front ++ [Mark.ofCode d] ∧ ∀ p ∈ front, p.Beyond := ⟨[], rfl, by simp⟩
    obtain ⟨_, more, ⟨front, rfl, hfront⟩, heq⟩ := (kept_first hx).composeCells hopen (ending (.scalar c)) cs
    obtain ⟨y, ys, hmarks, hy, -⟩ := (joinsAll_segmentMarks front (Mark.ofCode d)).beyond (by simp) fun m hm =>
      hfront m (List.mem_reverse.mp hm)
    rw [compose_cons_single hd h, heq, segmentBytes_eq (front ++ _), hmarks, List.flatMap_cons]
    rcases hy with rfl | hy
    · exact ⟨_, _, by rw [hbytes]; rfl, .inl rfl⟩
    · obtain ⟨b, bytes, hb, hle⟩ := hy.head
      exact ⟨b, _, by rw [hb]; rfl, .inr hle⟩

theorem compose_alone {c : Char} {cs : List Char} {a : UInt8} {rest : Bytes} (ha : a.toNat < 128)
    (h : compose (Utf8.encodeAll (c :: cs)) = a :: rest) :
    added (.scalar c) = 0 ∧ compose (Utf8.encodeAll [c]) = [a] ∧
      ((∀ c ∈ cs.takeWhile fun c => added (.scalar c) ≠ 0, c.toNat ≠ kawiKiller) →
      compose (Utf8.encodeAll cs) = rest) := by
  rcases covered_ofCell c with ⟨d, hd, hcell, hending⟩ | hcovered
  · obtain ⟨hx, hbytes, hstart⟩ := single_spec hd hcell
    obtain ⟨halone, b, bytes, heq, hb⟩ := compose_single hd hcell cs
    obtain ⟨rfl, -⟩ := List.cons.inj (h.symm.trans heq)
    obtain rfl := hb.resolve_right (by omega)
    refine ⟨hstart, halone, fun hk => ?_⟩
    rw [compose_cons_single hd hcell, hending] at h
    rw [compose_encodeAll]
    have hempty : ∀ m ∈ ([] : List Mark), m.Beyond ∧ m.Trails := by simp
    rcases composeCells_first hx hempty 0 hk with heq' | ⟨b, more, heq', hbeyond⟩
    · rw [hbytes] at heq'
      exact (List.cons.inj (heq'.symm.trans h)).2
    · obtain ⟨rfl, -⟩ := List.cons.inj (heq'.symm.trans h)
      omega
  · obtain ⟨b, bytes, heq, hb⟩ := compose_covered hcovered cs
    obtain ⟨rfl, -⟩ := List.cons.inj (h.symm.trans heq)
    omega

/-- A composed text can also be cut behind an ASCII byte. What stands behind it is what the rest of the text is
composed to, unless a mark of the rest is taken for a letter where no starter stands in front of it. -/
theorem compose_cut_behind {cs : List Char} {a : UInt8} (ha : a.toNat < 128) {front rest : Bytes}
    (h : compose (Utf8.encodeAll cs) = front ++ a :: rest) : ∃ before behind, cs = before ++ behind ∧
      compose (Utf8.encodeAll before) = front ++ [a] ∧
      ((∀ c ∈ behind.takeWhile fun c => added (.scalar c) ≠ 0, c.toNat ≠ kawiKiller) →
        compose (Utf8.encodeAll behind) = rest) := by
  obtain ⟨before, behind, rfl, hbefore, hbehind⟩ := compose_cut ha h
  cases behind with
  | nil => cases hbehind
  | cons c behind =>
    obtain ⟨hstart, halone, hrest⟩ := compose_alone ha hbehind
    refine ⟨before ++ [c], behind, by simp, ?_, hrest⟩
    rw [compose_append before hstart, hbefore, halone]

/-- Behind a letter the two marks are left as they are; alone they become a Greek letter. -/
example : compose (Utf8.encodeAll ['q', Char.ofNat kawiKiller, Char.ofNat 0x300]) =
      Utf8.encodeAll ['q', Char.ofNat kawiKiller, Char.ofNat 0x300] ∧
    compose (Utf8.encodeAll [Char.ofNat kawiKiller, Char.ofNat 0x300]) = Utf8.encodeAll [Char.ofNat 0x1F43] := by
  decide +kernel

end RegCode.Text.Canonical
