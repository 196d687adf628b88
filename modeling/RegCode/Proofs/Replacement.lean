import Mathlib
import RegCode.Command

/-!
# Replacing a file

Whichever steps of writing a file go wrong, the disk ends as it was or with only the target changed, and no
temporary file is left. The temporary file stands where nothing was, so taking it away again gives the first disk
back, and no path that could be followed before leads elsewhere while it is there.
-/

namespace RegCode

namespace Disk

variable {d : Disk} {p q : Path} {e e' : Entry}

/-! ## Entries -/

@[simp] theorem mishap_put (d : Disk) (p : Path) (e : Entry) : (d.put p e).mishap = d.mishap := by
  unfold put
  split <;> rfl

theorem entries_ne (h : d.entry? p = none) : ∀ x ∈ d.entries, x.1 ≠ p := by
  intro x hx e
  unfold entry? at h
  split at h
  · cases h
  · rw [List.lookup_eq_none_iff] at h
    simpa [e] using h x hx

theorem not_isOutside (h : d.entry? p ≠ some .directory) : isOutside p = false := by
  rw [Bool.eq_false_iff]
  intro ho
  exact h (by rw [ entry?, if_pos ho])

theorem not_isOutside_of_free (h : d.entry? p = none) : isOutside p = false :=
  not_isOutside (d := d) (by simp [h])

theorem put_of_free (h : d.entry? p = none) (e : Entry) :
    d.put p e = { d with entries := d.entries ++ [(p, e)] } := by
  have hany : d.entries.any (·.1 == p) = false := by
    rw [List.any_eq_false]
    intro x hx
    simpa using entries_ne h x hx
  rw [put, hany]
  rfl

theorem put_put (h : d.entry? p = none) (e e' : Entry) : (d.put p e).put p e' = d.put p e' := by
  have hmap : (d.entries.map fun x => if x.1 = p then (p, e') else x) = d.entries := by
    refine (List.map_congr_left fun x hx => ?_).trans (List.map_id _)
    simp [entries_ne h x hx]
  rw [put_of_free h, put_of_free h, put]
  simp [hmap]

theorem remove_put (h : d.entry? p = none) (e : Entry) : (d.put p e).remove p = d := by
  have hfilter : d.entries.filter (·.1 != p) = d.entries := by
    rw [List.filter_eq_self]
    intro x hx
    simpa using entries_ne h x hx
  rw [put_of_free h, remove]
  simp [hfilter]

theorem lookup_map_self {l : List (Path × Entry)} (h : l.any (·.1 == p) = true) :
    (l.map fun x => if x.1 == p then (p, e) else x).lookup p = some e := by
  induction l with
  | nil => cases h
  | cons x l ih =>
    by_cases hx : x.1 = p
    · simp [hx]
    · have hx' : (p == x.1) = false := by simpa using Ne.symm hx
      rw [List.map_cons, if_neg (by simpa using hx), List.lookup_cons, hx']
      exact ih (by simpa [hx] using h)

theorem lookup_map_of_ne (l : List (Path × Entry)) (hq : q ≠ p) :
    (l.map fun x => if x.1 == p then (p, e) else x).lookup q = l.lookup q := by
  induction l with
  | nil => rfl
  | cons x l ih =>
    rw [List.map_cons, List.lookup_cons, List.lookup_cons, ih]
    by_cases hx : x.1 = p
    · have hq' : (q == p) = false := by simpa using hq
      simp [hx, hq']
    · simp [hx]

theorem entry?_put_self (h : isOutside p = false) (e : Entry) : Disk.entry? (d.put p e) p = some e := by
  unfold entry? put
  rw [if_neg (by simp [h])]
  split
  · next hany => exact lookup_map_self hany
  · next hany =>
    have hnone : d.entries.lookup p = none := by
      rw [List.lookup_eq_none_iff]
      intro x hx
      simp only [List.any_eq_true, not_exists, not_and, beq_iff_eq] at hany
      simpa using Ne.symm (hany x hx)
    simp [List.lookup_append, hnone]

theorem entry?_put_of_ne (hq : q ≠ p) (e : Entry) : Disk.entry? (d.put p e) q = d.entry? q := by
  have hq' : (q == p) = false := by simpa using hq
  unfold entry? put
  split
  · rfl
  · split
    · exact lookup_map_of_ne _ hq
    · simp [List.lookup_append, List.lookup_cons, hq']

/-! ## Paths -/

/-- A file that stands where no directory was is in nobody's way. -/
theorem walk_put (h : d.entry? p ≠ some .directory) (b : Bytes) (names : List Bytes) (here : Path) :
    (d.put p (.file b)).walk here names = .ok q ↔ d.walk here names = .ok q := by
  induction names generalizing here with
  | nil => rfl
  | cons name rest ih =>
    unfold walk
    by_cases hp : here = p
    · subst hp
      rw [entry?_put_self (not_isOutside h)]
      cases he : d.entry? here with
      | none => simp
      | some e =>
        cases e with
        | file => simp
        | directory => exact absurd he h
    · rw [entry?_put_of_ne hp]
      split
      · rfl
      · rfl
      · split
        · rfl
        · exact ih _

theorem locate_put (h : d.entry? p ≠ some .directory) (b path : Bytes) :
    (d.put p (.file b)).locate path = .ok q ↔ d.locate path = .ok q := by
  unfold locate
  split
  · rfl
  · split
    · rfl
    · split
      · rfl
      · exact walk_put h ..
      · exact walk_put h ..

/-! ## Steps -/

theorem create_ok_iff {path : Bytes} {d' : Disk} : d.create path = .ok (p, d') ↔
    d.mishap .create = none ∧ d.locate path = .ok p ∧ d.entry? p = none ∧ d' = d.put p (.file []) := by
  unfold create
  cases d.mishap .create with
  | some e => simp
  | none =>
    cases d.locate path with
    | error e => simp
    | ok p' =>
      by_cases he : d.entry? p' = none
      · simp only [he, Option.isSome_none, Bool.false_eq_true, if_false, Except.ok.injEq, Prod.mk.injEq, true_and]
        constructor
        · rintro ⟨rfl, rfl⟩
          exact ⟨rfl, he, rfl⟩
        · rintro ⟨rfl, -, rfl⟩
          exact ⟨rfl, rfl⟩
      · simp only [Option.isSome_iff_ne_none, ne_eq, he, not_false_eq_true, if_true, reduceCtorEq, false_iff]
        rintro ⟨-, hp, hn, -⟩
        cases hp
        exact he hn

/-- The steps between making the temporary file and renaming it go well. -/
structure Fills (d : Disk) : Prop where
  write : d.mishap .write = none
  sync : d.mishap .sync = none
  chmod : d.mishap .chmod = none
  close : d.mishap .close = none

/-- The new file has all contents, or there is an error; nothing else is changed. -/
theorem fill_cases (h : d.entry? p = none) (contents : Bytes) :
    (d.Fills ∧ (d.put p (.file [])).fill p contents = (none, d.put p (.file contents))) ∨
    (¬ d.Fills ∧ ∃ x b, (d.put p (.file [])).fill p contents = (some x, d.put p (.file b))) := by
  unfold fill
  rw [mishap_put]
  cases hw : d.mishap .write with
  | some e =>
    refine .inr ⟨fun hd => ?_, _, _, by rw [put_put h]⟩
    cases hw.symm.trans hd.write
  | none =>
    simp only [put_put h]
    cases hx : (d.put p (.file [])).firstMishap finishingSteps with
    | none =>
      simp only [firstMishap, finishingSteps, mishap_put, List.findSome?_eq_none_iff] at hx
      refine .inl ⟨⟨hw, ?_, ?_, ?_⟩, rfl⟩
      all_goals simp_all
    | some x =>
      refine .inr ⟨fun hd => ?_, x, _, rfl⟩
      simp [firstMishap, finishingSteps, hd.sync, hd.chmod, hd.close] at hx

theorem rename_put (h : d.entry? p = none) {b target : Bytes} {d' : Disk} :
    (d.put p (.file b)).rename p target = .ok d' ↔ d.mishap .rename = none ∧
      ∃ q, d.locate target = .ok q ∧ d.entry? q ≠ some .directory ∧ d' = d.put q (.file b) := by
  have hself := entry?_put_self (d := d) (not_isOutside_of_free h) (.file b)
  have hdir : ∀ q, Disk.entry? (d.put p (.file b)) q = some .directory ↔ d.entry? q = some .directory := by
    intro q
    by_cases hq : q = p
    · simp [hq, hself, h]
    · rw [entry?_put_of_ne hq]
  have hfree : d.entry? p ≠ some .directory := by simp [h]
  -- the target is looked for while the temporary file is there
  simp only [← locate_put hfree b target]
  unfold rename
  rw [mishap_put, hself]
  cases d.mishap .rename with
  | some e => simp
  | none =>
    cases (d.put p (.file b)).locate target with
    | error e => simp
    | ok q =>
      simp only [hdir, remove_put h]
      split <;> simp_all [eq_comm]

/-- The target can have new contents: no step goes wrong, the temporary file can be made, and the target is not a
directory. -/
structure Replaceable (d : Disk) (target : Bytes) (q : Path) : Prop where
  steps : ∀ step, step ≠ .read → d.mishap step = none
  temp : ∃ p, d.locate (d.freshName target) = .ok p ∧ d.entry? p = none
  target : d.locate target = .ok q
  file : d.entry? q ≠ some .directory

theorem Replaceable.fills {target : Bytes} (h : d.Replaceable target q) : d.Fills :=
  ⟨h.steps .write (by simp), h.steps .sync (by simp), h.steps .chmod (by simp), h.steps .close (by simp)⟩

theorem replaceable_of_steps {target : Bytes} (hp : d.locate (d.freshName target) = .ok p) (hf : d.entry? p = none)
    (hcreate : d.mishap .create = none) (hfill : d.Fills) (hrename : d.mishap .rename = none)
    (hq : d.locate target = .ok q) (hd : d.entry? q ≠ some .directory) : d.Replaceable target q := by
  refine ⟨?_, ⟨p, hp, hf⟩, hq, hd⟩
  obtain ⟨hwrite, hsync, hchmod, hclose⟩ := hfill
  intro step hstep
  cases step <;> first | assumption | exact absurd rfl hstep

/-- Either the target is changed and nothing else, or there is an error and nothing is changed. -/
theorem replace_cases (d : Disk) (target contents : Bytes) :
    (∃ q, d.Replaceable target q ∧ d.replace target contents = (.ok (), d.put q (.file contents))) ∨
    (¬ ∃ q, d.Replaceable target q) ∧ ∃ e, d.replace target contents = (.error e, d) := by
  cases hc : d.create (d.freshName target) with
  | error e =>
    refine .inr ⟨?_, _, by rw [replace, hc]⟩
    rintro ⟨q, h⟩
    obtain ⟨p, hp, hf⟩ := h.temp
    have hok := create_ok_iff.mpr ⟨h.steps .create (by simp), hp, hf, rfl⟩
    cases hc.symm.trans hok
  | ok r =>
    obtain ⟨p, d₁⟩ := r
    obtain ⟨hcreate, hp, hf, rfl⟩ := create_ok_iff.mp hc
    rcases fill_cases hf contents with ⟨hfill, hr⟩ | ⟨hfill, x, b, hr⟩
    · cases hn : (d.put p (.file contents)).rename p target with
      | error e =>
        refine .inr ⟨?_, _, by simp only [replace, hc, hr, hn, remove_put hf]; rfl⟩
        rintro ⟨q, h⟩
        have hok := (rename_put hf (b := contents)).mpr ⟨h.steps .rename (by simp), q, h.target, h.file, rfl⟩
        cases hn.symm.trans hok
      | ok d₂ =>
        obtain ⟨hrename, q, hq, hd, rfl⟩ := (rename_put hf).mp hn
        exact .inl ⟨q, replaceable_of_steps hp hf hcreate hfill hrename hq hd, by simp only [replace, hc, hr, hn]⟩
    · refine .inr ⟨?_, _, by simp only [replace, hc, hr, remove_put hf]; rfl⟩
      rintro ⟨q, h⟩
      exact hfill h.fills

theorem store_cases (d : Disk) (target : Bytes) (c : Chunk) :
    (∃ b q, c.encode = .ok b ∧ d.Replaceable target q ∧ d.store target c = (none, d.put q (.file b))) ∨
    (¬ ∃ b q, c.encode = .ok b ∧ d.Replaceable target q) ∧ ∃ e, d.store target c = (some e, d) := by
  unfold store
  cases he : c.encode with
  | error e =>
    refine .inr ⟨?_, _, rfl⟩
    rintro ⟨b, q, hb, -⟩
    cases hb
  | ok b =>
    rcases d.replace_cases target b with ⟨q, hq, hr⟩ | ⟨hq, e, hr⟩
    · exact .inl ⟨b, q, rfl, hq, by simp only [hr]⟩
    · refine .inr ⟨?_, .store e, by simp only [hr]⟩
      rintro ⟨b', q, -, h⟩
      exact hq ⟨q, h⟩

/-- Writing the image of a source to a target ends with success or without, and leaves `d'`: all or nothing. -/
structure AllOrNothing (d : Disk) (source? : Except FileError Bytes) (target : Bytes) (ok : Bool) (d' : Disk) :
    Prop where
  failure : ok = false → d' = d
  success : ok = true → ∃ source c b q, source? = .ok source ∧ (compileSource source).1 = .ok c ∧ c.encode = .ok b ∧
    d.Replaceable target q ∧ d' = d.put q (.file b) ∧ d'.entry? q = some (.file b) ∧
    ∀ q', q' ≠ q → d'.entry? q' = d.entry? q'
  possible : (∃ source c b q, source? = .ok source ∧ (compileSource source).1 = .ok c ∧ c.encode = .ok b ∧
    d.Replaceable target q) → ok = true

namespace AllOrNothing

variable {source target : Bytes}

theorem failed {source? : Except FileError Bytes} (h : ¬ ∃ source c b q, source? = .ok source ∧
    (compileSource source).1 = .ok c ∧ c.encode = .ok b ∧ d.Replaceable target q) :
    d.AllOrNothing source? target false d :=
  ⟨fun _ => rfl, fun hok => absurd hok Bool.false_ne_true, fun hp => absurd hp h⟩

theorem unread {error : FileError} : d.AllOrNothing (.error error) target false d := by
  apply failed
  rintro ⟨_, _, _, _, h, -⟩
  cases h

theorem uncompiled {error : BuildError} (h : (compileSource source).1 = .error error) :
    d.AllOrNothing (.ok source) target false d := by
  apply failed
  rintro ⟨_, c, _, _, hs, hc, -⟩
  cases hs
  rw [h] at hc
  cases hc

theorem stored {c : Chunk} (h : (compileSource source).1 = .ok c) :
    d.AllOrNothing (.ok source) target (d.store target c).1.isNone (d.store target c).2 := by
  rcases d.store_cases target c with ⟨b, q, hb, hq, hs⟩ | ⟨hn, e, hs⟩
  · rw [hs]
    refine ⟨fun hf => absurd hf.symm Bool.false_ne_true, fun _ => ?_, fun _ => rfl⟩
    refine ⟨source, c, b, q, rfl, h, hb, hq, rfl, ?_, ?_⟩
    · exact entry?_put_self (not_isOutside hq.file) _
    · exact fun q' hq' => entry?_put_of_ne hq' _
  · rw [hs]
    apply failed
    rintro ⟨source', c', b, q, hs', hc', hb, hq⟩
    cases hs'
    rw [h] at hc'
    cases hc'
    exact hn ⟨b, q, hb, hq⟩

end AllOrNothing

end Disk

/-! ## Building -/

theorem build_stored (d : Disk) (target : Bytes) {source : Bytes} {c : Chunk}
    (h : (compileSource source).1 = .ok c) :
    (build d source target).chunk = some c ∧ (build d source target).error = (d.store target c).1 ∧
    (build d source target).disk = (d.store target c).2 := by
  unfold build
  cases hs : compileSource source with
  | mk result notices =>
    rw [hs] at h
    subst h
    exact ⟨rfl, rfl, rfl⟩

theorem build_uncompiled (d : Disk) (target : Bytes) {source : Bytes} {e : BuildError}
    (h : (compileSource source).1 = .error e) :
    (build d source target).error = some e ∧ (build d source target).disk = d := by
  unfold build
  cases hs : compileSource source with
  | mk result notices =>
    rw [hs] at h
    subst h
    exact ⟨rfl, rfl⟩

theorem build_allOrNothing (d : Disk) (source target : Bytes) :
    d.AllOrNothing (.ok source) target (build d source target).error.isNone (build d source target).disk := by
  cases hc : (compileSource source).1 with
  | error e =>
    obtain ⟨he, hd⟩ := build_uncompiled d target hc
    rw [he, hd]
    exact .uncompiled hc
  | ok c =>
    obtain ⟨-, he, hd⟩ := build_stored d target hc
    rw [he, hd]
    exact .stored hc

theorem buildFile_allOrNothing (d : Disk) (path target : Bytes) :
    d.AllOrNothing (d.read path) target (buildFile d path target).error.isNone (buildFile d path target).disk := by
  unfold buildFile
  cases d.read path with
  | error e => exact .unread
  | ok source => exact build_allOrNothing d source target

namespace Command

theorem compileText_uncompiled (style : Style) (o : Options) (name : Bytes) (d : Disk) {source : Bytes}
    {e : BuildError} (h : (compileSource source).1 = .error e) :
    (compileText style o name source d).exit = 1 ∧ (compileText style o name source d).disk = d := by
  unfold compileSource readProgram parseSource at h
  unfold compileText
  by_cases hp : (parse (tokenize source)).errors.isEmpty = true
  · simp only [hp, if_true] at h
    cases hr : (compile (parse (tokenize source)).program).result with
    | error f => simp [hp, hr]
    | ok c =>
      rw [hr] at h
      cases h
  · simp [hp]

theorem compileText_stored (style : Style) (o : Options) (name : Bytes) (d : Disk) {source : Bytes} {c : Chunk}
    (h : (compileSource source).1 = .ok c) :
    ((compileText style o name source d).exit == 0) = (d.store o.output c).1.isNone ∧
    (compileText style o name source d).disk = (d.store o.output c).2 := by
  unfold compileSource readProgram parseSource at h
  unfold compileText
  by_cases hp : (parse (tokenize source)).errors.isEmpty = true
  · simp only [hp, if_true] at h
    cases hr : (compile (parse (tokenize source)).program).result with
    | error f =>
      rw [hr] at h
      cases h
    | ok c' =>
      rw [hr] at h
      cases h
      cases hs : d.store o.output c with
      | mk e d' => cases e <;> simp [hp, hr, hs]
  · simp only [hp] at h
    cases h

theorem compileText_allOrNothing (style : Style) (o : Options) (name source : Bytes) (d : Disk) :
    d.AllOrNothing (.ok source) o.output ((compileText style o name source d).exit == 0)
      (compileText style o name source d).disk := by
  cases hc : (compileSource source).1 with
  | error e =>
    obtain ⟨he, hd⟩ := compileText_uncompiled style o name d hc
    rw [he, hd]
    exact .uncompiled hc
  | ok c =>
    obtain ⟨he, hd⟩ := compileText_stored style o name d hc
    rw [he, hd]
    exact .stored hc

theorem compileFile_allOrNothing (style : Style) (o : Options) (path? : Option Bytes) (d : Disk)
    (h : o.check = false) :
    d.AllOrNothing (path?.elim (.ok defaultSource) d.read) o.output ((compileFile style o path? d).exit == 0)
      (compileFile style o path? d).disk := by
  unfold compileFile
  cases path? with
  | none =>
    simp only [h]
    exact compileText_allOrNothing ..
  | some path =>
    cases hr : d.read path with
    | error e =>
      simp only [Option.elim_some, hr]
      exact .unread
    | ok source =>
      simp only [Option.elim_some, hr, h]
      exact compileText_allOrNothing ..

theorem compileFile_check (style : Style) {o : Options} (path? : Option Bytes) (d : Disk) (h : o.check = true) :
    (compileFile style o path? d).disk = d := by
  unfold compileFile
  cases path? with
  | none => simp [h]
  | some path =>
    cases hr : d.read path with
    | error e => simp only [hr, Except.map, failed]
    | ok source => simp [hr, Except.map, h]

end Command

open Command in
/-- Building from a source, from a file and on the command line is all or nothing. A check leaves the disk alone,
and what was compiled is there also if it could not be written. -/
theorem building_all_or_nothing (d : Disk) :
    (∀ source target, d.AllOrNothing (.ok source) target (build d source target).error.isNone
      (build d source target).disk) ∧
    (∀ path target, d.AllOrNothing (d.read path) target (buildFile d path target).error.isNone
      (buildFile d path target).disk) ∧
    (∀ s args path? o, Invocation.ofArgs args = .ok (.compile path? o) →
      (o.check = false → d.AllOrNothing (path?.elim (.ok defaultSource) d.read) o.output ((run s args d).exit == 0)
        (run s args d).disk) ∧
      (o.check = true → (run s args d).disk = d)) ∧
    ∀ source target c, (compileSource source).1 = .ok c → (build d source target).chunk = some c := by
  refine ⟨build_allOrNothing d, buildFile_allOrNothing d, ?_, ?_⟩
  · intro s args path? o h
    rw [run, h]
    exact ⟨compileFile_allOrNothing _ o path? d, compileFile_check _ path? d⟩
  · intro source target c hc
    exact (build_stored d target hc).1

/-- A disk with the source `1;` in a file. A write that goes wrong stops after three bytes. -/
def stocked (mishap : DiskStep → Option Errno) : Disk := ⟨[([txt "in"], .file (txt "1;"))], mishap, 3⟩

def syncFails : DiskStep → Option Errno
  | .sync => some .inputOutput
  | _ => none

theorem one_encoded : ∃ c b, (compileSource (txt "1;")).1 = .ok c ∧ c.encode = .ok b := by
  have h : ((compileSource (txt "1;")).1.bind fun c => c.encode.mapError .encode).isOk = true := by cbv
  cases hc : (compileSource (txt "1;")).1 with
  | error e =>
    rw [hc] at h
    cases h
  | ok c =>
    cases hb : c.encode with
    | error e =>
      simp only [hc, Except.bind, hb] at h
      cases h
    | ok b => exact ⟨c, b, rfl, hb⟩

open Command in
/-- The image is written if nothing goes wrong. If the temporary file cannot be synced, nothing is left of it. -/
theorem stocked_all_or_nothing :
    Invocation.ofArgs [txt "-qo", txt "out", txt "in"] =
      .ok (.compile (some (txt "in")) { output := txt "out", quiet := true }) ∧
    (∃ b, (run {} [txt "-qo", txt "out", txt "in"] (stocked fun _ => none)).disk =
      (stocked fun _ => none).put [txt "out"] (.file b)) ∧
    (run {} [txt "-qo", txt "out", txt "in"] (stocked syncFails)).exit ≠ 0 ∧
    (run {} [txt "-qo", txt "out", txt "in"] (stocked syncFails)).disk = stocked syncFails := by
  have hargs : Invocation.ofArgs [txt "-qo", txt "out", txt "in"] =
      .ok (.compile (some (txt "in")) { output := txt "out", quiet := true }) := by cbv
  have hrun := fun mishap => ((building_all_or_nothing (stocked mishap)).2.2.1 {} _ _ _ hargs).1 rfl
  refine ⟨hargs, ?_, ?_⟩
  · have hsource : (stocked fun _ => none).read (txt "in") = .ok (txt "1;") := by cbv
    have htarget : (stocked fun _ => none).locate (txt "out") = .ok [txt "out"] := by cbv
    have htemp : (stocked fun _ => none).locate ((stocked fun _ => none).freshName (txt "out")) =
        .ok [txt ".out.tmp-1000000000"] := by cbv
    have hout : Disk.entry? (stocked fun _ => none) [txt "out"] = none := by cbv
    have hq : (stocked fun _ => none).Replaceable (txt "out") [txt "out"] :=
      ⟨fun _ _ => rfl, ⟨_, htemp, by cbv⟩, htarget, by simp [hout]⟩
    obtain ⟨c, b, hc, hb⟩ := one_encoded
    have hok := (hrun fun _ => none).possible ⟨_, c, b, _, hsource, hc, hb, hq⟩
    obtain ⟨_, _, b, q, -, -, -, hr, hd, -⟩ := (hrun fun _ => none).success hok
    cases htarget.symm.trans hr.target
    exact ⟨b, hd⟩
  · have hexit : (run {} [txt "-qo", txt "out", txt "in"] (stocked syncFails)).exit ≠ 0 := by
      intro h
      obtain ⟨_, _, _, _, -, -, -, hr, -⟩ := (hrun _).success (by rw [h]; rfl)
      exact absurd (hr.steps .sync (by simp)) (by simp [stocked, syncFails])
    exact ⟨hexit, (hrun _).failure (by simpa using hexit)⟩

end RegCode
