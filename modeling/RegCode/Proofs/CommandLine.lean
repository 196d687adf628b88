import RegCode.Proofs.Composition
import RegCode.Proofs.Extent
import RegCode.Proofs.LineComment
import RegCode.Proofs.Rendering
import RegCode.Proofs.Replacement
import RegCode.Proofs.Truncation

/-!
# The command line and the library

Compiling a file on the command line succeeds where building from that file does, and leaves the same disk. What was
written can then be shown: its code and constants come back as they were compiled. Flags that only say how a command
reports may stand anywhere in between.
-/

namespace RegCode

namespace Command

/-! ## Flags -/

/-- A flag that says how a command reports, and not what it does. -/
def Flag.isManner : Flag → Bool
  | quiet | verbose | noColor => true
  | check | output | help => false

/-- What is written to a switch, and the value that it has so: nothing, or an equals sign and the value. -/
inductive SwitchTail : Bytes → Bytes → Prop where
  | none : SwitchTail [] switchedOn
  | value {v : Bytes} : (switchValue? v).isSome = true → SwitchTail (61 :: v) v

/-- An argument that sets such flags, by a name or by letters that are run together. -/
inductive Manner : Bytes → Prop where
  | long {f : Flag} {tail v : Bytes} : f.isManner = true → SwitchTail tail v → Manner (txt "--" ++ f.name ++ tail)
  | short {letters tail v : Bytes} : letters ≠ [] →
      (∀ c ∈ letters, ∃ f : Flag, f.isManner = true ∧ f.letter? = some c) → SwitchTail tail v →
      Manner (txt "-" ++ letters ++ tail)

/-- An argument that is neither a flag nor the name of a command. -/
structure Plain (arg : Bytes) : Prop where
  flag : isFlag arg = false
  command : Subcommand.named? arg = none

structure Options.Same (o o' : Options) : Prop where
  check : o'.check = o.check
  output : o'.output = o.output
  help : o'.help = o.help

theorem Options.Same.trans {o₁ o₂ o₃ : Options} (h : o₁.Same o₂) (h' : o₂.Same o₃) : o₁.Same o₃ :=
  ⟨h'.check.trans h.check, h'.output.trans h.output, h'.help.trans h.help⟩

theorem set_manner {f : Flag} (hf : f.isManner = true) {v : Bytes} (hv : (switchValue? v).isSome = true)
    (o : Options) : ∃ o', o.set f v = .ok o' ∧ o.Same o' := by
  obtain ⟨b, hb⟩ := Option.isSome_iff_exists.mp hv
  cases f with
  | check | output | help => cases hf
  | quiet | verbose | noColor =>
    simp only [Options.set, hb]
    exact ⟨_, rfl, rfl, rfl, rfl⟩

theorem flagTexts_spec : (switchValue? switchedOn).isSome = true ∧ switchValue? [] = none ∧
    endOfFlags = [45, 45] ∧ txt "-" = [45] ∧ txt "test." = 116 :: txt "est." := by
  decide +kernel

theorem SwitchTail.isSome {tail v : Bytes} (h : SwitchTail tail v) : (switchValue? v).isSome = true := by
  cases h with
  | none => exact flagTexts_spec.1
  | value hv => exact hv

theorem Flag.name_spec (f : Flag) : Flag.named? Flag.all f.name = some f ∧ f.name.head?.any (· != 45) = true ∧
    61 ∉ f.name := by
  cases f <;> decide +kernel

theorem named?_name (f : Flag) : Flag.named? Flag.all f.name = some f := f.name_spec.1

theorem isSwitch_of_isManner {f : Flag} (h : f.isManner = true) : f.isSwitch = true ∧ f.isKnownSwitch = true := by
  cases f with
  | check | output | help => cases h
  | quiet | verbose | noColor => exact ⟨rfl, rfl⟩

theorem name_eq_cons (f : Flag) : ∃ b rest, f.name = b :: rest ∧ b ≠ 45 ∧ 61 ∉ f.name := by
  obtain ⟨-, hhead, h61⟩ := f.name_spec
  cases hname : f.name with
  | nil =>
    rw [hname] at hhead
    cases hhead
  | cons b rest =>
    rw [hname] at hhead h61
    exact ⟨b, rest, rfl, bne_iff_ne.mp hhead, h61⟩

theorem longFlag_switch {f : Flag} (hf : f.isSwitch = true) {tail v : Bytes} (ht : SwitchTail tail v)
    (next? : Option Bytes) (o : Options) :
    longFlag Flag.all (45 :: 45 :: f.name ++ tail) next? o = (o.set f v).map (·, false) := by
  obtain ⟨b, rest, hname, h45, h61⟩ := name_eq_cons f
  have hb : b ≠ 61 := fun e => h61 (by simp [hname, e])
  have hrun : (f.name ++ tail).takeWhile (· != 61) = f.name := by
    rw [List.takeWhile_append_of_pos]
    · cases ht <;> simp
    · intro c hc
      have hne : c ≠ 61 := fun e => h61 (e ▸ hc)
      simpa using hne
  have hcons : f.name ++ tail = b :: (rest ++ tail) := by rw [hname, List.cons_append]
  unfold longFlag
  simp only [List.cons_append, List.drop_succ_cons, List.drop_zero]
  rw [hrun, named?_name, List.drop_left, hcons]
  split
  · simp_all
  · simp_all
  · simp_all
  · cases ht with
    | none => simp only [hf, if_true]; rfl
    | value hv => rfl

theorem lettered_manner {f : Flag} (hf : f.isManner = true) {c : UInt8} (hc : f.letter? = some c) :
    Flag.lettered? Flag.all c = some f ∧ c ≠ 45 ∧ c ≠ 61 ∧ c ≠ 116 := by
  cases f with
  | check | output | help => cases hf
  | noColor => cases hc
  | quiet | verbose =>
    cases hc
    decide

section
variable {f : Flag} (hf : f.isManner = true) {c : UInt8} (hc : f.letter? = some c) (next? : Option Bytes)

include hf hc

theorem not_test_group (more : Bytes) : (txt "test.").isPrefixOf (c :: more) = false := by
  obtain ⟨-, -, -, -, htest⟩ := flagTexts_spec
  obtain ⟨-, -, -, h116⟩ := lettered_manner hf hc
  simp [htest, List.isPrefixOf, Ne.symm h116]

theorem shortFlags_letter {o o' : Options} (hset : o.set f switchedOn = .ok o') {more : Bytes}
    (hm : more.head? ≠ some 61) :
    shortFlags Flag.all next? o (c :: more) = shortFlags Flag.all next? o' more := by
  obtain ⟨hflag, -⟩ := lettered_manner hf hc
  rw [shortFlags, not_test_group hf hc, if_neg Bool.false_ne_true, hflag]
  dsimp only
  split
  · exact absurd rfl hm
  · rw [if_pos (isSwitch_of_isManner hf).1, hset]
    rfl

theorem shortFlags_value (o : Options) {v : Bytes} (hv : v ≠ []) :
    shortFlags Flag.all next? o (c :: 61 :: v) = (o.set f v).map (·, false) := by
  obtain ⟨hflag, -⟩ := lettered_manner hf hc
  obtain ⟨b, v, rfl⟩ := List.exists_cons_of_ne_nil hv
  rw [shortFlags, not_test_group hf hc, if_neg Bool.false_ne_true, hflag]
  rfl

end

theorem shortFlags_manner {letters tail v : Bytes}
    (hl : ∀ c ∈ letters, ∃ f : Flag, f.isManner = true ∧ f.letter? = some c) (ht : SwitchTail tail v)
    (hne : letters ≠ []) (next? : Option Bytes) (o : Options) :
    ∃ o', shortFlags Flag.all next? o (letters ++ tail) = .ok (o', false) ∧ o.Same o' := by
  induction letters generalizing o with
  | nil => exact absurd rfl hne
  | cons c more ih =>
    obtain ⟨⟨f, hf, hc⟩, hmore⟩ := List.forall_mem_cons.mp hl
    obtain ⟨o₁, hset, hsame⟩ := set_manner hf SwitchTail.none.isSome o
    cases more with
    | cons c' more =>
      obtain ⟨⟨f', hf', hc'⟩, -⟩ := List.forall_mem_cons.mp hmore
      obtain ⟨-, -, h61, -⟩ := lettered_manner hf' hc'
      obtain ⟨o₂, hrest, hsame'⟩ := ih hmore (List.cons_ne_nil _ _) o₁
      refine ⟨o₂, ?_, hsame.trans hsame'⟩
      rw [List.cons_append, shortFlags_letter hf hc next? hset (by simpa using h61), hrest]
    | nil =>
      cases ht with
      | none => exact ⟨o₁, shortFlags_letter hf hc next? hset (by simp), hsame⟩
      | value hv =>
        have hne : v ≠ [] := by
          rintro rfl
          rw [flagTexts_spec.2.1] at hv
          cases hv
        obtain ⟨o₂, hset', hsame'⟩ := set_manner hf hv o
        refine ⟨o₂, ?_, hsame'⟩
        rw [List.cons_append, List.nil_append, shortFlags_value hf hc next? o hne, hset']
        rfl

theorem endOfFlags_eq : endOfFlags = [45, 45] := flagTexts_spec.2.2.1

/-- A flag that is read on its own, whatever follows, and changes nothing of what is asked for. -/
structure Alone (w : Bytes) : Prop where
  flag : isFlag w = true
  ne_end : w ≠ endOfFlags
  wants : wantsValue w = false
  head : w.head? = some 45
  read : ∀ next? o, ∃ o', readFlag Flag.all w next? o = .ok (o', false) ∧ o.Same o'

theorem alone_long {f : Flag} (hf : f.isManner = true) {tail v : Bytes} (ht : SwitchTail tail v) :
    Alone (45 :: 45 :: f.name ++ tail) := by
  obtain ⟨hswitch, hknown⟩ := isSwitch_of_isManner hf
  have hlong : endOfFlags.isPrefixOf (45 :: 45 :: f.name ++ tail) = true := by simp [endOfFlags_eq]
  refine ⟨rfl, ?_, ?_, rfl, ?_⟩
  · obtain ⟨b, rest, hname, -⟩ := name_eq_cons f
    simp [endOfFlags_eq, hname]
  · unfold wantsValue
    rw [if_pos hlong]
    cases ht with
    | none => simp [named?_name, hknown]
    | value => simp
  · intro next? o
    obtain ⟨o', hset, hsame⟩ := set_manner hf ht.isSome o
    refine ⟨o', ?_, hsame⟩
    rw [readFlag, if_pos hlong, longFlag_switch hswitch ht, hset]
    rfl

theorem alone_short {c : UInt8} {more tail v : Bytes}
    (hl : ∀ x ∈ c :: more, ∃ f : Flag, f.isManner = true ∧ f.letter? = some x) (ht : SwitchTail tail v) :
    Alone (45 :: (c :: more ++ tail)) := by
  obtain ⟨f, hf, hc⟩ := hl c (.head _)
  obtain ⟨hflag, h45, -⟩ := lettered_manner hf hc
  have hshort : endOfFlags.isPrefixOf (45 :: (c :: more ++ tail)) = false := by
    simp [endOfFlags_eq, List.isPrefixOf, Ne.symm h45]
  refine ⟨rfl, by simp [endOfFlags_eq, h45], ?_, rfl, ?_⟩
  · unfold wantsValue
    rw [hshort, List.cons_append]
    cases more ++ tail with
    | nil => simp [hflag, (isSwitch_of_isManner hf).2]
    | cons => simp
  · intro next? o
    rw [readFlag, hshort]
    exact shortFlags_manner hl ht (List.cons_ne_nil _ _) next? o

theorem Manner.alone {w : Bytes} (h : Manner w) : Alone w := by
  cases h with
  | long hf ht =>
    have htxt : txt "--" = [45, 45] := endOfFlags_eq
    rw [htxt]
    exact alone_long hf ht
  | short hne hl ht =>
    obtain ⟨c, more, rfl⟩ := List.exists_cons_of_ne_nil hne
    rw [flagTexts_spec.2.2.2.1]
    exact alone_short hl ht

section
variable {ws : List Bytes}

theorem firstWord?_manner (h : ∀ w ∈ ws, Manner w) (rest : List Bytes) :
    firstWord? (ws ++ rest) = firstWord? rest := by
  induction ws with
  | nil => rfl
  | cons w ws ih =>
    obtain ⟨hw, hws⟩ := List.forall_mem_cons.mp h
    rw [List.cons_append, firstWord?.eq_def]
    simp [hw.alone.ne_end, hw.alone.wants, hw.alone.head, ih hws]

theorem readFlagsOnto_manner (h : ∀ w ∈ ws, Manner w) (args : List Bytes) (o : Options) (rest : List Bytes) :
    ∃ o', readFlagsOnto Flag.all args o (ws ++ rest) = readFlagsOnto Flag.all args o' rest ∧ o.Same o' := by
  induction ws generalizing o with
  | nil => exact ⟨o, rfl, rfl, rfl, rfl⟩
  | cons w ws ih =>
    obtain ⟨hw, hws⟩ := List.forall_mem_cons.mp h
    obtain ⟨o₁, hread, hsame⟩ := hw.alone.read (ws ++ rest).head? o
    obtain ⟨o₂, hrest, hsame'⟩ := ih hws o₁
    refine ⟨o₂, ?_, hsame.trans hsame'⟩
    rw [List.cons_append, readFlagsOnto, if_neg (by simpa using hw.alone.ne_end), hw.alone.flag, hread]
    exact hrest

end

namespace Plain

variable {arg : Bytes}

theorem ne_endOfFlags (h : Plain arg) : arg ≠ endOfFlags := by
  rintro rfl
  have hflag := h.flag
  rw [endOfFlags_eq] at hflag
  cases hflag

theorem wantsValue (h : Plain arg) : wantsValue arg = false := by
  have hshort : endOfFlags.isPrefixOf arg = false := by
    rw [Bool.eq_false_iff]
    intro hp
    obtain ⟨rest, rfl⟩ := List.isPrefixOf_iff_prefix.mp hp
    have hflag := h.flag
    rw [endOfFlags_eq] at hflag
    cases hflag
  unfold Command.wantsValue
  rw [hshort, if_neg Bool.false_ne_true]
  split
  · exact absurd h.flag (by simp [isFlag])
  · exact Bool.and_false _

theorem firstWord? (h : Plain arg) {rest : List Bytes} (hr : ∀ w ∈ rest, Manner w) :
    (firstWord? (arg :: rest)).bind Subcommand.named? = none := by
  have hnone : Command.firstWord? rest = none := by
    rw [← List.append_nil rest, firstWord?_manner hr, Command.firstWord?]
  rw [Command.firstWord?.eq_def]
  simp only [beq_iff_eq, h.ne_endOfFlags, if_false, h.wantsValue, Bool.false_eq_true, hnone]
  split
  · rfl
  · exact h.command

end Plain

/-! ## Command lines -/

section
variable {source : Bytes} {between after : List Bytes} (hs : Plain source) (hb : ∀ w ∈ between, Manner w)
  (ha : ∀ w ∈ after, Manner w)

include hs hb ha

theorem firstWord?_source : (firstWord? (between ++ source :: after)).bind Subcommand.named? = none := by
  rw [firstWord?_manner hb]
  exact hs.firstWord? ha

theorem readFlagsOnto_source (o : Options) :
    ∃ o', readFlagsOnto Flag.all [] o (between ++ source :: after) = .ok ([source], o') ∧ o.Same o' := by
  obtain ⟨o₁, hread, hsame⟩ := readFlagsOnto_manner hb [] o (source :: after)
  obtain ⟨o₂, hread', hsame'⟩ := readFlagsOnto_manner ha [source] o₁ []
  refine ⟨o₂, ?_, hsame.trans hsame'⟩
  rw [hread, readFlagsOnto, if_neg (by simpa using hs.ne_endOfFlags), hs.flag, Bool.not_false, if_pos rfl]
  rw [List.append_nil] at hread'
  rw [hread', readFlagsOnto]
  rfl

end

/-- Some arguments that are read on their own, whatever follows, and change the options by `f`. -/
structure Asks (task : List Bytes) (f : Options → Options) : Prop where
  help : ∀ o, (f o).help = o.help
  word : ∀ rest, rest ≠ [] → firstWord? (task ++ rest) = firstWord? rest
  read : ∀ o rest, readFlagsOnto Flag.all [] o (task ++ rest) = readFlagsOnto Flag.all [] (f o) rest

theorem words_spec :
    (isFlag (txt "-o") = true ∧ wantsValue (txt "-o") = true ∧ txt "-o" ≠ endOfFlags) ∧
    (isFlag (txt "--check") = true ∧ wantsValue (txt "--check") = false ∧ txt "--check" ≠ endOfFlags ∧
      (txt "--check").head? = some 45) ∧
    Subcommand.named? (txt "dump") = some .dump := by
  decide +kernel

theorem asks_output (target : Bytes) : Asks [txt "-o", target] fun o => { o with output := target } := by
  obtain ⟨hflag, hwants, hne⟩ := words_spec.1
  refine ⟨fun _ => rfl, ?_, ?_⟩
  · intro rest h
    obtain ⟨w, more, rfl⟩ := List.exists_cons_of_ne_nil h
    rw [List.cons_append, firstWord?.eq_def]
    simp [hwants, hne]
  · intro o rest
    have hread : readFlag Flag.all (txt "-o") (some target) o = .ok ({ o with output := target }, true) := by cbv
    rw [List.cons_append, readFlagsOnto]
    simp [hne, hflag, hread]

theorem asks_check : Asks [txt "--check"] fun o => { o with check := true } := by
  obtain ⟨hflag, hwants, hne, hhead⟩ := words_spec.2.1
  refine ⟨fun _ => rfl, ?_, ?_⟩
  · intro rest _
    rw [List.cons_append, firstWord?.eq_def]
    simp [hwants, hne, hhead]
  · intro o rest
    have hread : ∀ next?, readFlag Flag.all (txt "--check") next? o = .ok ({ o with check := true }, false) := by
      intro next?
      cbv
    rw [List.cons_append, readFlagsOnto]
    simp [hne, hflag, hread]

/-- A file may be named behind such arguments, with other flags in between. -/
theorem Asks.ofArgs {task : List Bytes} {f : Options → Options} (h : Asks task f) {source : Bytes}
    (hs : Plain source) {before between after : List Bytes} (hm : ∀ w ∈ before ++ between ++ after, Manner w) :
    ∃ o o', Invocation.ofArgs (before ++ task ++ between ++ [source] ++ after) = .ok (.compile (some source) o') ∧
      Options.Same {} o ∧ (f o).Same o' := by
  simp only [List.mem_append] at hm
  have hbefore : ∀ w ∈ before, Manner w := fun w hw => hm w (.inl (.inl hw))
  have hbetween : ∀ w ∈ between, Manner w := fun w hw => hm w (.inl (.inr hw))
  have hafter : ∀ w ∈ after, Manner w := fun w hw => hm w (.inr hw)
  have hline : before ++ task ++ between ++ [source] ++ after =
      before ++ (task ++ (between ++ source :: after)) := by simp
  obtain ⟨o, hread, hsame⟩ := readFlagsOnto_manner hbefore [] {} (task ++ (between ++ source :: after))
  obtain ⟨o', hread', hsame'⟩ := readFlagsOnto_source hs hbetween hafter (f o)
  refine ⟨o, o', ?_, hsame, hsame'⟩
  rw [h.read, hread'] at hread
  have hhelp : o'.help = false := hsame'.help.trans ((h.help o).trans hsame.help)
  unfold Invocation.ofArgs readFlags
  rw [hline, firstWord?_manner hbefore, h.word _ (by simp), firstWord?_source hs hbetween hafter, hread]
  simp only [bind, Except.bind, hhelp, Bool.false_eq_true, if_false]
  rfl

theorem ofArgs_dump {path : Bytes} (h : Plain path) :
    Invocation.ofArgs [txt "dump", path] = .ok (.dump path {}) := by
  have hfirst : firstWord? [txt "dump", path] = some (txt "dump") := by cbv
  have hrest : without (txt "dump") [txt "dump", path] = [path] := by cbv
  have hread : readFlags Flag.shared [path] = .ok ([path], {}) := by
    simp [readFlags, readFlagsOnto, h.ne_endOfFlags, h.flag]
  unfold Invocation.ofArgs
  rw [hfirst, Option.bind_some, words_spec.2.2]
  simp only [Subcommand.name]
  rw [hrest, hread]
  rfl

end Command

/-! ## What was written -/

theorem Disk.read_put {d : Disk} {q : Path} {target : Bytes} (hr : d.mishap .read = none)
    (hq : d.locate target = .ok q) (hd : d.entry? q ≠ some .directory) (b : Bytes) :
    (d.put q (.file b)).read target = .ok b := by
  rw [Disk.read, mishap_put, hr, (locate_put hd b target).mpr hq]
  simp [entry?_put_self (not_isOutside hd)]

theorem Disk.mishap_of_read {d : Disk} {path b : Bytes} (h : d.read path = .ok b) : d.mishap .read = none := by
  unfold Disk.read at h
  cases hr : d.mishap .read with
  | none => rfl
  | some e =>
    rw [hr] at h
    cases h

def Chunk.stored (c : Chunk) : Chunk := { code := c.code, consts := c.consts, lines := #[], registers := 255 }

/-- What is compiled is read again as it was, but for its lines and the number of its registers, exactly if all
lengths can be written. -/
theorem Compiled.decode_iff {p : Program} {c : Chunk} {F : Fragment} (hF : Compiled p c F) {b : Bytes}
    (hb : c.encode = .ok b) : (∃ i, Image.decode b = .ok i ∧ i.chunk = c.stored) ↔ c.Short := by
  constructor
  · rintro ⟨i, hi, hchunk⟩
    obtain ⟨-, hfits, -⟩ := Image.decode_ok_iff.mp hi
    have hcode : i.chunk.code = c.code := by rw [hchunk]; rfl
    have hconsts : i.chunk.consts = c.consts := by rw [hchunk]; rfl
    constructor
    · rw [← hcode, Image.chunk]
      cases hf : i.functions with
      | nil => exact Nat.two_pow_pos 32
      | cons f rest => exact hfits.code f (by simp [hf])
    · intro s hs
      rw [← hconsts] at hs
      have hmem : .str s ∈ i.consts := by simpa [Image.chunk] using hs
      exact hfits.const _ hmem
  · intro h
    have hks : c.consts.toList.map (·.const?) = F.consts.map some := by simp [hF.consts, PoolValue.const?]
    rw [Chunk.encode, Image.ofChunk_ok hks] at hb
    cases hb
    refine ⟨_, Image.decode_ok_iff.mpr ⟨rfl, (hF.storable h).fits hks, Image.encode_eq _⟩, ?_⟩
    simp [Image.chunk, Chunk.stored, ← hF.consts]

theorem load_buildFile {d : Disk} {source target : Bytes} (h : (buildFile d source target).error = none) :
    ∃ text c b, d.read source = .ok text ∧ (compileSource text).1 = .ok c ∧ c.encode = .ok b ∧
      (buildFile d source target).disk.load target = (Image.decode b).mapError .image := by
  have hok : (buildFile d source target).error.isNone = true := by rw [h]; rfl
  obtain ⟨text, c, b, q, hr, hc, hb, hq, hd, -⟩ := (buildFile_allOrNothing d source target).success hok
  refine ⟨text, c, b, hr, hc, hb, ?_⟩
  rw [hd, Disk.load, Disk.read_put (Disk.mishap_of_read hr) hq.target hq.file]

theorem load_built {d : Disk} {source target : Bytes} (h : (buildFile d source target).error = none) :
    ∃ text c, d.read source = .ok text ∧ (compileSource text).1 = .ok c ∧
      ((∃ i, (buildFile d source target).disk.load target = .ok i ∧ i.chunk = c.stored) ↔ c.Short) := by
  obtain ⟨text, c, b, hr, hc, hb, hload⟩ := load_buildFile h
  refine ⟨text, c, hr, hc, ?_⟩
  obtain ⟨F, hF⟩ := compile_compiled (compileSource_ok hc).2
  rw [← hF.decode_iff hb, hload]
  cases hi : Image.decode b with
  | error f => simp [Except.mapError]
  | ok i => simp [Except.mapError]

namespace Command

theorem compileFile_read (style : Style) (o : Options) {source text : Bytes} {d : Disk}
    (h : d.read source = .ok text) :
    compileFile style o (some source) d =
      if o.check then ⟨if (check text).isOk then 0 else 1, {}, d⟩ else compileText style o source text d := by
  simp only [compileFile, h, Except.map]

theorem compileFile_build (style : Style) {o : Options} (source : Bytes) (d : Disk) (h : o.check = false) :
    ((compileFile style o (some source) d).exit = 0 ↔ (buildFile d source o.output).error = none) ∧
      (compileFile style o (some source) d).disk = (buildFile d source o.output).disk := by
  cases hr : d.read source with
  | error e => simp [compileFile, buildFile, hr, Except.map, failed]
  | ok text =>
    have hbuild : buildFile d source o.output = build d text o.output := by simp only [buildFile, hr]
    rw [compileFile_read style o hr, h, if_neg Bool.false_ne_true, hbuild]
    cases hc : (compileSource text).1 with
    | error e =>
      obtain ⟨hexit, hdisk⟩ := compileText_uncompiled style o source d hc
      obtain ⟨herror, hdisk'⟩ := build_uncompiled d o.output hc
      simp [hexit, hdisk, herror, hdisk']
    | ok c =>
      obtain ⟨hexit, hdisk⟩ := compileText_stored style o source d hc
      obtain ⟨-, herror, hdisk'⟩ := build_stored d o.output hc
      rw [hdisk, hdisk', herror, ← beq_iff_eq, hexit, Option.isNone_iff_eq_none]
      exact ⟨Iff.rfl, rfl⟩

theorem run_dump (s : Setting) {d : Disk} {path : Bytes} {i : Image} (hp : Plain path) (h : d.load path = .ok i) :
    run s [txt "dump", path] d = ⟨0, ({} : Console).print i.chunk.fullListing, d⟩ := by
  have hlisting : disassembleFile d path = .ok i.chunk.fullListing := by
    rw [disassembleFile, h]
    rfl
  simp only [run, ofArgs_dump hp, dump, hlisting]

theorem run_dump_failed (s : Setting) {d : Disk} {path : Bytes} {e : BuildError} (hp : Plain path)
    (h : d.load path = .error e) : (run s [txt "dump", path] d).exit = 1 := by
  have hlisting : disassembleFile d path = .error e := by
    rw [disassembleFile, h]
    rfl
  simp only [run, ofArgs_dump hp, dump, hlisting, failed]

end Command

namespace Command

theorem run_compile (s : Setting) (d : Disk) (target : Bytes) {source : Bytes} (hs : Plain source)
    {before between after : List Bytes} (hm : ∀ w ∈ before ++ between ++ after, Manner w) :
    let built := buildFile d source target
    let compiled := run s (before ++ [txt "-o", target] ++ between ++ [source] ++ after) d
    (compiled.exit = 0 ↔ built.error = none) ∧ compiled.disk = built.disk := by
  intro built compiled
  obtain ⟨_, o, hargs, hsame, houtput⟩ := (asks_output target).ofArgs hs hm
  have hcompiled : compiled = compileFile (s.style o) o (some source) d := by
    simp only [compiled, run, hargs]
    rfl
  have hcheck : o.check = false := houtput.check.trans hsame.check
  rw [hcompiled]
  simpa only [houtput.output] using compileFile_build (s.style o) source d hcheck

end Command

open Command in
/-- The command line compiles a file where building from it succeeds, and leaves the same disk. With a check it only
tells whether the file can be read as a program. What was compiled is then shown with its code and its constants,
but without lines and with 255 registers. For that all its lengths have to fit into the 32 bits that an image has
for each; those of a source of less than two gigabytes do. -/
theorem command_line_agrees (s : Setting) (d : Disk) {source target : Bytes} (hs : Plain source) (ht : Plain target)
    {before between after : List Bytes} (hm : ∀ w ∈ before ++ between ++ after, Manner w) :
    let built := buildFile d source target
    let compiled := run s (before ++ [txt "-o", target] ++ between ++ [source] ++ after) d
    let checked := run s (before ++ [txt "--check"] ++ between ++ [source] ++ after) d
    (compiled.exit = 0 ↔ built.error = none) ∧ compiled.disk = built.disk ∧
    (∀ text, d.read source = .ok text →
      (checked.exit = 0 ↔ check text = .ok ()) ∧ checked.out = [] ∧ checked.disk = d) ∧
    (compiled.exit = 0 → ∃ text c, d.read source = .ok text ∧ (compileSource text).1 = .ok c ∧
      ((Text.Canonical.compose text).length < 2 ^ 31 → c.Short) ∧
      ((∃ i, compiled.disk.load target = .ok i ∧ i.chunk = c.stored) ↔ c.Short) ∧
      (c.Short → ∀ s', (run s' [txt "dump", target] compiled.disk).exit = 0 ∧
        (run s' [txt "dump", target] compiled.disk).out = c.stored.listing ++ txt "\n" ++ c.stored.poolSection ∧
        (run s' [txt "dump", target] compiled.disk).disk = compiled.disk)) := by
  intro built compiled checked
  obtain ⟨hexit, hdisk⟩ := run_compile s d target hs hm
  refine ⟨hexit, hdisk, ?_, ?_⟩
  · intro text hr
    obtain ⟨_, o, hargs, -, hsame⟩ := asks_check.ofArgs hs hm
    have hchecked : checked = compileFile (s.style o) o (some source) d := by
      simp only [checked, run, hargs]
      rfl
    rw [hchecked, compileFile_read _ o hr, hsame.check, if_pos rfl]
    refine ⟨?_, rfl, rfl⟩
    cases check text <;> simp [Except.isOk, Except.toBool]
  · intro h
    obtain ⟨text, c, hr, hc, hload⟩ := load_built (hexit.mp h)
    change compiled.disk = built.disk at hdisk
    rw [← hdisk] at hload
    refine ⟨text, c, hr, hc, compileSource_short hc, hload, fun hshort s' => ?_⟩
    obtain ⟨i, hi, hchunk⟩ := hload.mpr hshort
    rw [run_dump s' ht hi, hchunk]
    refine ⟨rfl, ?_, rfl⟩
    simp [Result.out, Console.print, Console.joined, Chunk.fullListing, Chunk.listing, Sheet.add]

theorem Command.plain_in_out : Plain (txt "in") ∧ Plain (txt "out") :=
  ⟨⟨by decide +kernel, by decide +kernel⟩, ⟨by decide +kernel, by decide +kernel⟩⟩

open Command in
theorem stocked_agrees : Plain (txt "in") ∧ Plain (txt "out") ∧
    (∀ w ∈ [txt "-qv", txt "--no-color=false", txt "-v=1"], Manner w) ∧
    (run {} [txt "-qv", txt "-o", txt "out", txt "--no-color=false", txt "in", txt "-v=1"]
      (stocked fun _ => none)).exit = 0 ∧
    (run {} [txt "-qv", txt "--check", txt "--no-color=false", txt "in", txt "-v=1"]
      (stocked fun _ => none)).out = [] ∧
    ∃ c, (compileSource (txt "1;")).1 = .ok c ∧
      (run {} [txt "dump", txt "out"] (buildFile (stocked fun _ => none) (txt "in") (txt "out")).disk).out =
        c.stored.listing ++ txt "\n" ++ c.stored.poolSection := by
  obtain ⟨hin, hout⟩ := plain_in_out
  have hletters : txt "-qv" = txt "-" ++ [113, 118] ++ [] := by decide +kernel
  have hlong : txt "--no-color=false" = txt "--" ++ Flag.noColor.name ++ 61 :: txt "false" := by decide +kernel
  have hvalue : txt "-v=1" = txt "-" ++ [118] ++ 61 :: txt "1" := by decide +kernel
  have hquiet : ∃ f : Flag, f.isManner = true ∧ f.letter? = some 113 := ⟨.quiet, rfl, rfl⟩
  have hverbose : ∃ f : Flag, f.isManner = true ∧ f.letter? = some 118 := ⟨.verbose, rfl, rfl⟩
  have hm : ∀ w ∈ [txt "-qv"] ++ [txt "--no-color=false"] ++ [txt "-v=1"], Manner w := by
    rw [hletters, hlong, hvalue]
    simp only [List.forall_mem_append, List.forall_mem_singleton]
    refine ⟨⟨.short (by simp) (by simp [hquiet, hverbose]) .none, .long rfl (.value (by decide +kernel))⟩, ?_⟩
    exact .short (by simp) (by simp [hverbose]) (.value (by decide +kernel))
  obtain ⟨hexit, hdisk, hcheck, hdump⟩ := command_line_agrees {} (stocked fun _ => none) hin hout hm
  have hbuilt : (buildFile (stocked fun _ => none) (txt "in") (txt "out")).error.isNone = true := by cbv
  have hread : (stocked fun _ => none).read (txt "in") = .ok (txt "1;") := by cbv
  have hok := hexit.mpr (Option.isNone_iff_eq_none.mp hbuilt)
  refine ⟨hin, hout, hm, hok, (hcheck _ hread).2.1, ?_⟩
  obtain ⟨text, c, hr, hc, hsmall, -, hshown⟩ := hdump hok
  cases hread.symm.trans hr
  have hshort := hsmall (by decide +kernel)
  rw [← hdisk]
  exact ⟨c, hc, (hshown hshort {}).2.1⟩

/-! ## A string that does not fit -/

def zerosText (n : Nat) : Bytes := 34 :: (List.replicate n 0 ++ txt "\" ;")

theorem zerosText_spaced (n : Nat) :
    Lexeme.Spaced [(.string, List.replicate n 0), (.semicolon, txt ";")] (zerosText n) := by
  have hsign : (txt ";", Kind.semicolon) ∈ Lexeme.signs ∧ txt "\" ;" = [34, 32] ++ txt ";" := by decide +kernel
  have htext : zerosText n = Lexeme.spell .string (List.replicate n 0) ++
      ([32] ++ (Lexeme.spell .semicolon (txt ";") ++ ([] ++ []))) := by
    simp [zerosText, Lexeme.spell, Lexeme.escape, List.flatMap_replicate, hsign.2]
  rw [htext]
  exact .cons .string (by simp [Lexeme.Blank]) (by simp) (.cons (.sign hsign.1) (by simp) (by simp) .nil)

theorem compose_zerosText (n : Nat) : Text.Canonical.compose (zerosText n) = zerosText n := by
  apply Text.Canonical.compose_ascii
  have htail : ∀ b ∈ txt "\" ;", b.toNat < 128 := by decide +kernel
  simp only [zerosText, List.mem_cons, List.mem_append, List.mem_replicate]
  rintro b (rfl | ⟨-, rfl⟩ | hb)
  · decide
  · decide
  · exact htail b hb

theorem tokenize_zerosText (n : Nat) : ∃ q r, tokenize (zerosText n) =
    [⟨.string, List.replicate n 0, ⟨0, 1, 1⟩⟩, ⟨.semicolon, txt ";", q⟩, ⟨.eof, [], r⟩] := by
  have hrest : (Cursor.ofSource (zerosText n)).rest = [] ++ zerosText n := compose_zerosText n
  have htokens := Cursor.tokensOnto_spaced (zerosText_spaced n) [] _ hrest (by simp)
  have hfirst := Cursor.head?_tokensOnto (Cursor.ofSource (zerosText n))
  have hgap : Lexeme.gap (Cursor.ofSource (zerosText n)).rest = 0 := by
    rw [hrest]
    exact Lexeme.gap_blanks (by simp) (Lexeme.gapStep_opening (.inr rfl) _)
  have hpos : (Cursor.ofSource (zerosText n)).nextToken.1.pos = ⟨0, 1, 1⟩ := by
    rw [Cursor.pos_nextToken, Cursor.skipGap, hgap]
    rfl
  unfold tokenize
  generalize (Cursor.tokensOnto [] (Cursor.ofSource (zerosText n))).1 = ts at htokens hfirst
  obtain ⟨⟨k₁, l₁, p⟩, ts₁, rfl, h₁, hts₁⟩ := List.map_eq_cons_iff.mp htokens
  obtain ⟨⟨k₂, l₂, q⟩, ts₂, rfl, h₂, hts₂⟩ := List.map_eq_cons_iff.mp hts₁
  obtain ⟨⟨k₃, l₃, r⟩, ts₃, rfl, h₃, hts₃⟩ := List.map_eq_cons_iff.mp hts₂
  obtain ⟨rfl, rfl⟩ := Prod.mk.inj h₁
  obtain ⟨rfl, rfl⟩ := Prod.mk.inj h₂
  obtain ⟨rfl, rfl⟩ := Prod.mk.inj h₃
  cases List.map_eq_nil_iff.mp hts₃
  rw [List.head?_cons, Option.some.injEq] at hfirst
  rw [← hfirst] at hpos
  cases hpos
  exact ⟨q, r, rfl⟩

theorem compile_string (s : Bytes) (q r : Position) :
    let parsed := parse [⟨.string, s, ⟨0, 1, 1⟩⟩, ⟨.semicolon, txt ";", q⟩, ⟨.eof, [], r⟩]
    parsed.errors.isEmpty = true ∧
    (compile parsed.program).result.toOption.map (·.consts.toList) = some [.const (.str s)] := by
  constructor
  · cbv
  · cbv

theorem compileSource_zerosText (n : Nat) : ∃ c, (compileSource (zerosText n)).1 = .ok c ∧
    c.consts.toList = [.const (.str (List.replicate n 0))] := by
  obtain ⟨q, r, htokens⟩ := tokenize_zerosText n
  obtain ⟨herrors, hconsts⟩ := compile_string (List.replicate n 0) q r
  obtain ⟨c, hc, hconsts⟩ := Option.map_eq_some_iff.mp hconsts
  refine ⟨c, ?_, hconsts⟩
  simp only [compileSource, readProgram, parseSource, htokens, herrors, if_true]
  cases hr : (compile (parse [⟨.string, List.replicate n 0, ⟨0, 1, 1⟩⟩, ⟨.semicolon, txt ";", q⟩,
      ⟨.eof, [], r⟩]).program).result with
  | error f =>
    rw [hr] at hc
    cases hc
  | ok c' =>
    rw [hr] at hc
    cases hc
    rfl

namespace Image

/-- The length of such a string is written as zero, and its first bytes are taken for the number of functions. So
the image seems to end there. -/
theorem decode_zeros {n : Nat} (hn : n = 2 ^ 32) (fs : List Function) :
    ∃ f, decode (layout ⟨1, [.str (List.replicate n 0)], fs⟩) = .error f := by
  have hend : decode (layout ⟨1, [.str []], []⟩) = .ok ⟨1, [.str []], []⟩ :=
    decode_ok_iff.mpr ⟨rfl, ⟨by decide, by decide, by decide, by decide⟩, rfl⟩
  have hlength : bigEndian 4 n = bigEndian 4 0 := by
    rw [hn]
    exact bigEndian_add_mul 4 0 1
  have hcount : List.replicate n (0 : UInt8) = bigEndian 4 0 ++ List.replicate (n - 4) 0 := by
    have hzeros : bigEndian 4 0 = List.replicate 4 0 := by decide
    rw [hzeros, List.replicate_append_replicate, Nat.add_sub_of_le (by omega)]
  have hlayout : layout ⟨1, [.str (List.replicate n 0)], fs⟩ = layout ⟨1, [.str []], []⟩ ++
      (List.replicate (n - 4) 0 ++ (bigEndian 4 fs.length ++ fs.flatMap (·.layout))) := by
    simp only [layout, Const.layout, List.flatMap_cons, List.flatMap_nil, List.length_replicate, hlength,
      List.length_cons, List.length_nil, List.append_assoc, List.append_nil]
    rw [hcount]
    simp only [List.append_assoc]
  have hmore : List.replicate (n - 4) (0 : UInt8) ≠ [] := by
    rw [Ne, List.replicate_eq_nil_iff]
    omega
  rw [hlayout]
  exact ⟨_, decode_trailing hend (by simp [hmore])⟩

end Image

namespace Command

theorem zeros_failed {n : Nat} (hn : n = 2 ^ 32) {d : Disk}
    (hd : d = ⟨[([txt "in"], .file (zerosText n))], fun _ => none, 3⟩) :
    (run {} [txt "-o", txt "out", txt "in"] d).exit = 0 ∧
      (run {} [txt "dump", txt "out"] (run {} [txt "-o", txt "out", txt "in"] d).disk).exit = 1 := by
  obtain ⟨c, hc, hconsts⟩ := compileSource_zerosText n
  have hks : c.consts.toList.map (·.const?) = [Const.str (List.replicate n 0)].map some := by rw [hconsts]; rfl
  have hencode : c.encode = .ok (Image.layout ⟨1, [.str (List.replicate n 0)], [⟨0, 0, 255, c.code.toList⟩]⟩) := by
    rw [Chunk.encode, Image.ofChunk_ok hks, ← Image.encode_eq]
    rfl
  have hread : d.read (txt "in") = .ok (zerosText n) := by
    rw [hd]
    cbv
  have hreplaced : (d.replace (txt "out") []).1.isOk = true := by
    rw [hd]
    cbv
  obtain ⟨q, hq⟩ : ∃ q, d.Replaceable (txt "out") q := by
    rcases d.replace_cases (txt "out") [] with ⟨q, hq, -⟩ | ⟨-, e, he⟩
    · exact ⟨q, hq⟩
    · rw [he] at hreplaced
      cases hreplaced
  have hbuilt : (buildFile d (txt "in") (txt "out")).error = none :=
    Option.isNone_iff_eq_none.mp ((buildFile_allOrNothing d (txt "in") (txt "out")).possible
      ⟨_, c, _, q, hread, hc, hencode, hq⟩)
  obtain ⟨hexit, hdisk⟩ := run_compile {} d (txt "out") plain_in_out.1
    (show ∀ w ∈ [] ++ [] ++ [], Manner w by simp)
  change (run {} [txt "-o", txt "out", txt "in"] d).exit = 0 ↔ _ at hexit
  change (run {} [txt "-o", txt "out", txt "in"] d).disk = _ at hdisk
  refine ⟨hexit.mpr hbuilt, ?_⟩
  obtain ⟨text, c', b, hr, hc', hb, hload⟩ := load_buildFile hbuilt
  cases hread.symm.trans hr
  cases hc.symm.trans hc'
  cases hencode.symm.trans hb
  obtain ⟨f, hf⟩ := Image.decode_zeros hn [⟨0, 0, 255, c.code.toList⟩]
  rw [hf] at hload
  rw [hdisk]
  exact run_dump_failed {} plain_in_out.2 hload

end Command

open Command in
/-- A string of four gigabytes is compiled, and the image that is written for it cannot be shown. -/
theorem zeros_not_shown :
    let d : Disk := ⟨[([txt "in"], .file (zerosText (2 ^ 32)))], fun _ => none, 3⟩
    let compiled := run {} [txt "-o", txt "out", txt "in"] d
    Plain (txt "in") ∧ Plain (txt "out") ∧ compiled.exit = 0 ∧
      (run {} [txt "dump", txt "out"] compiled.disk).exit = 1 :=
  ⟨plain_in_out.1, plain_in_out.2, zeros_failed rfl rfl⟩

end RegCode
