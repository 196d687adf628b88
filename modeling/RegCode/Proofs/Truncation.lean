import RegCode.Proofs.Layout

/-!
# Images that are cut off or continued

Every decoder knows where its part ends. It does not look at what follows, and if anything is missing of the bytes
that it would accept, it says that they are truncated and nothing else: all it has seen up to there is as it would
be in the whole. This goes from decoders to sequences of them, so the whole of an image is told from all that is
shorter, and what stands behind it is told from an image.
-/

namespace RegCode.Image

/-- The fault is that the bytes are at their end where more are needed. -/
def Fault.Missing (r : Remainder) (f : Fault) : Prop :=
  ∃ need offset found, f = .truncated need offset found ∧ found < need ∧ offset + found = r.offset + r.rest.length

namespace Decoder

open Remainder

variable {α β : Type}

/-- What the decoder accepts is accepted with anything behind it, and nothing shorter is found to be wrong but for
its end. -/
def Delimits (x : Decoder α) : Prop :=
  ∀ a r r', x r = .ok (a, r') → ∃ used, Passed used r r' ∧
    (∀ rest, x ⟨r.offset, used ++ rest⟩ = .ok (a, ⟨r'.offset, rest⟩)) ∧
    ∀ front missing, used = front ++ missing → missing ≠ [] →
      ∃ f, x ⟨r.offset, front⟩ = .error f ∧ f.Missing ⟨r.offset, front⟩

/-! ## Single steps -/

theorem bind_of_ok {x : Decoder α} {f : α → Decoder β} {r r₁ : Remainder} {a : α} (h : x r = .ok (a, r₁)) :
    (x >>= f) r = f a r₁ := by
  change (x r >>= fun p => f p.1 p.2) = _
  rw [h]
  rfl

theorem bind_of_error {x : Decoder α} {f : α → Decoder β} {r : Remainder} {e : Fault} (h : x r = .error e) :
    (x >>= f) r = .error e := by
  change (x r >>= fun p => f p.1 p.2) = _
  rw [h]
  rfl

theorem bytes_delimits (n : Nat) : (bytes n).Delimits := by
  intro b r r' h
  obtain ⟨hlen, hp⟩ := bytes_ok_iff.mp h
  refine ⟨b, hp, ?_, ?_⟩
  · intro rest
    exact bytes_ok_iff.mpr ⟨hlen, rfl, hp.offset⟩
  · intro front missing hused hne
    have hlt : front.length < n := by
      rw [← hlen, hused, List.length_append]
      exact Nat.lt_add_of_pos_right (List.length_pos_iff.mpr hne)
    have htake : front.take n = front := List.take_of_length_le (Nat.le_of_lt hlt)
    refine ⟨.truncated n r.offset front.length, ?_, n, r.offset, front.length, rfl, hlt, rfl⟩
    simp only [bytes, htake, if_neg (Nat.ne_of_lt hlt)]

theorem pure_delimits (a : α) : (pure a : Decoder α).Delimits := by
  intro b r r' h
  obtain ⟨rfl, rfl⟩ := pure_ok_iff.mp h
  refine ⟨[], passed_nil.mpr rfl, fun rest => rfl, ?_⟩
  intro front missing hused hne
  exact absurd (List.append_eq_nil_iff.mp hused.symm).2 hne

theorem delimits_of_fails {x : Decoder α} (h : ∀ a r r', x r ≠ .ok (a, r')) : x.Delimits :=
  fun a r r' hx => absurd hx (h a r r')

theorem Delimits.bind {x : Decoder α} {f : α → Decoder β} (hx : x.Delimits) (hf : ∀ a, (f a).Delimits) :
    (x >>= f).Delimits := by
  intro b r r' h
  obtain ⟨a, r₁, h₁, h₂⟩ := bind_ok_iff.mp h
  obtain ⟨used₁, hp₁, hmore₁, hless₁⟩ := hx a r r₁ h₁
  obtain ⟨used₂, hp₂, hmore₂, hless₂⟩ := hf a b r₁ r' h₂
  refine ⟨used₁ ++ used₂, passed_append.mpr ⟨r₁, hp₁, hp₂⟩, ?_, ?_⟩
  · intro rest
    rw [List.append_assoc, bind_of_ok (hmore₁ _)]
    exact hmore₂ rest
  · intro front missing hused hne
    -- the cut is in the second part, or in the first one
    have hsecond (front' : Bytes) (h₂ : used₂ = front' ++ missing) :
        ∃ e, (x >>= f) ⟨r.offset, used₁ ++ front'⟩ = .error e ∧ e.Missing ⟨r.offset, used₁ ++ front'⟩ := by
      obtain ⟨e, he, need, offset, found, rfl, hlt, hend⟩ := hless₂ front' missing h₂ hne
      refine ⟨_, (bind_of_ok (hmore₁ front')).trans he, need, offset, found, rfl, hlt, ?_⟩
      simp only [hp₁.offset, List.length_append] at hend ⊢
      omega
    rcases List.append_eq_append_iff.mp hused with ⟨front', rfl, h₂⟩ | ⟨missing₁, h₁, hmissing⟩
    · exact hsecond front' h₂
    · by_cases hnil : missing₁ = []
      · subst hnil
        rw [List.append_nil] at h₁
        have hall := hsecond [] hmissing.symm
        rwa [List.append_nil, h₁] at hall
      · obtain ⟨e, he, hm⟩ := hless₁ front missing₁ h₁ hnil
        exact ⟨e, bind_of_error he, hm⟩

theorem Delimits.check {p : Prop} [Decidable p] {e : Fault} {f : Unit → Decoder α} (hf : (f ()).Delimits) :
    (if p then throw e >>= f else f ()).Delimits := by
  by_cases h : p
  · rw [if_pos h]
    refine delimits_of_fails ?_
    intro a r r' hok
    exact (throw_ok_iff.mp (bind_ok_iff.mp hok).choose_spec.choose_spec.1).elim
  · rwa [if_neg h]

/-! ## The parts of an image -/

theorem number_delimits (width : Nat) (g : Nat → α) : Delimits (do return g (numberOf (← bytes width))) :=
  (bytes_delimits width).bind fun _ => pure_delimits _

theorem byte_delimits : byte.Delimits := number_delimits 1 UInt8.ofNat

theorem word_delimits : word.Delimits := number_delimits 4 UInt32.ofNat

theorem doubleWord_delimits : doubleWord.Delimits := number_delimits 8 UInt64.ofNat

theorem manyOnto_delimits {item : Nat → Decoder α} (h : ∀ index, (item index).Delimits) (n : Nat) :
    ∀ acc index, (manyOnto item acc index n).Delimits := by
  induction n with
  | zero => exact fun acc _ => pure_delimits acc.reverse
  | succ n ih => exact fun acc index => (h index).bind fun a => ih (a :: acc) (index + 1)

theorem counted_delimits {item : Nat → Decoder α} (h : ∀ index, (item index).Delimits) : (counted item).Delimits :=
  word_delimits.bind fun n => manyOnto_delimits h n.toNat [] 0

theorem const_delimits (index : Nat) : (const index).Delimits := by
  refine byte_delimits.bind fun tag => ?_
  by_cases hint : tag = tagInt
  · rw [if_pos hint]
    exact doubleWord_delimits.bind fun _ => pure_delimits _
  rw [if_neg hint]
  by_cases hfloat : tag = tagFloat
  · rw [if_pos hfloat]
    exact doubleWord_delimits.bind fun _ => pure_delimits _
  rw [if_neg hfloat]
  by_cases hstr : tag = tagStr
  · rw [if_pos hstr]
    exact word_delimits.bind fun n => (bytes_delimits n.toNat).bind fun _ => pure_delimits _
  · rw [if_neg hstr]
    refine delimits_of_fails ?_
    intro k r r' hok
    obtain ⟨_, _, -, hthrow⟩ := bind_ok_iff.mp hok
    exact throw_ok_iff.mp hthrow

theorem function_delimits : function.Delimits := by
  refine word_delimits.bind fun _ => byte_delimits.bind fun _ => byte_delimits.bind fun _ => ?_
  refine Delimits.bind ?_ fun _ => pure_delimits _
  exact counted_delimits fun _ => word_delimits.bind fun _ => pure_delimits _

/-- An image up to where it has to end. -/
def body : Decoder Image := do
  let m ← word
  if m ≠ magic then throw (.badMagic m)
  let version ← word
  if version ≠ currentVersion then throw (.badVersion version)
  let consts ← counted const
  let functions ← counted fun _ => function
  return ⟨version, consts, functions⟩

theorem body_delimits : body.Delimits := by
  refine word_delimits.bind fun m => .check ?_
  refine word_delimits.bind fun version => .check ?_
  refine (counted_delimits const_delimits).bind fun consts => ?_
  exact (counted_delimits fun _ => function_delimits).bind fun functions => pure_delimits _

theorem check_bind {p : Prop} [Decidable p] {e : Fault} {f : Unit → Decoder α} {g : α → Decoder β} :
    (if p then throw e >>= f else f ()) >>= g =
      if p then throw e >>= fun u => f u >>= g else f () >>= g := by
  by_cases h : p <;> simp [h]

theorem image_eq : image = body >>= fun i => atEnd >>= fun _ => pure i := by
  simp only [image, body, bind_assoc, check_bind, pure_bind]

theorem atEnd_of_rest {r : Remainder} (h : r.rest ≠ []) : atEnd r = .error (.trailing r.rest.length r.offset) := by
  have hget : (get : Decoder Remainder) r = .ok (r, r) := rfl
  rw [atEnd, bind_of_ok hget, if_pos (by simpa using h)]
  rfl

theorem image_of_rest {i : Image} {r r' : Remainder} (h : body r = .ok (i, r')) (hr : r'.rest ≠ []) :
    image r = .error (.trailing r'.rest.length r'.offset) := by
  rw [image_eq, bind_of_ok h]
  exact bind_of_error (atEnd_of_rest hr)

theorem body_of_image {i : Image} {r r' : Remainder} (h : image r = .ok (i, r')) :
    body r = .ok (i, r') ∧ r'.rest = [] := by
  rw [image_eq] at h
  obtain ⟨j, r₁, hbody, hrest⟩ := bind_ok_iff.mp h
  obtain ⟨_, r₂, hend, hpure⟩ := bind_ok_iff.mp hrest
  obtain ⟨hr, rfl⟩ := atEnd_ok_iff.mp hend
  obtain ⟨rfl, rfl⟩ := pure_ok_iff.mp hpure
  exact ⟨hbody, hr⟩

end Decoder

/-! ## Whole images -/

theorem decode_of_error {d : Bytes} {f : Fault} (h : Decoder.image ⟨0, d⟩ = .error f) : decode d = .error f := by
  change (Decoder.image ⟨0, d⟩).map (·.1) = .error f
  rw [h]
  rfl

theorem exists_of_decode_ok {d : Bytes} {i : Image} (h : decode d = .ok i) :
    ∃ r, Decoder.image ⟨0, d⟩ = .ok (i, r) := by
  change (Decoder.image ⟨0, d⟩).map (·.1) = .ok i at h
  cases hd : Decoder.image ⟨0, d⟩ with
  | error f =>
    rw [hd] at h
    cases h
  | ok p =>
    rw [hd] at h
    cases h
    exact ⟨p.2, rfl⟩

theorem body_of_decode {d : Bytes} {i : Image} (h : decode d = .ok i) :
    (∀ more, Decoder.body ⟨0, d ++ more⟩ = .ok (i, ⟨d.length, more⟩)) ∧
    ∀ front missing, d = front ++ missing → missing ≠ [] →
      ∃ f, Decoder.body ⟨0, front⟩ = .error f ∧ f.Missing ⟨0, front⟩ := by
  obtain ⟨r, himage⟩ := exists_of_decode_ok h
  obtain ⟨hbody, hr⟩ := Decoder.body_of_image himage
  obtain ⟨used, hp, hmore, hless⟩ := Decoder.body_delimits i ⟨0, d⟩ r hbody
  obtain rfl : d = used := by simpa [hr] using hp.rest
  have hoffset : r.offset = d.length := by simpa using hp.offset
  rw [hoffset] at hmore
  exact ⟨hmore, hless⟩

theorem decode_trailing {d : Bytes} {i : Image} (h : decode d = .ok i) {more : Bytes} (hne : more ≠ []) :
    decode (d ++ more) = .error (.trailing more.length d.length) :=
  decode_of_error (Decoder.image_of_rest ((body_of_decode h).1 more) hne)

/-- Where bytes are an image, anything less is truncated and anything more has bytes left. So no image begins with
another one. -/
theorem decode_cut_or_continued (d : Bytes) (i : Image) (h : decode d = .ok i) :
    (∀ front, front <+: d → front ≠ d → ∃ need offset found, decode front = .error (.truncated need offset found) ∧
      found < need ∧ offset + found = front.length) ∧
    (∀ more, more ≠ [] → decode (d ++ more) = .error (.trailing more.length d.length)) ∧
    ∀ d' i', decode d' = .ok i' → d <+: d' → d' = d := by
  refine ⟨?_, fun more hne => decode_trailing h hne, ?_⟩
  · rintro front ⟨missing, hd⟩ hne
    have hmissing : missing ≠ [] := by
      rintro rfl
      exact hne (by simpa using hd)
    obtain ⟨f, hf, need, offset, found, rfl, hlt, hend⟩ := (body_of_decode h).2 front missing hd.symm hmissing
    refine ⟨need, offset, found, decode_of_error ?_, hlt, by simpa using hend⟩
    rw [Decoder.image_eq]
    exact Decoder.bind_of_error hf
  · rintro d' i' h' ⟨more, rfl⟩
    by_cases hne : more = []
    · rw [hne, List.append_nil]
    · rw [decode_trailing h hne] at h'
      cases h'

/-- A string of two bytes and one function without code. -/
def smallImage : Image := ⟨1, [.str [7, 0]], [⟨0, 0, 255, []⟩]⟩

/-- Cut between the length of the string and its bytes, the string is found to be missing, and a byte more is
left. -/
theorem smallImage_cut_or_continued : decode smallImage.layout = .ok smallImage ∧
    (∃ need offset found, decode (smallImage.layout.take 17) = .error (.truncated need offset found)) ∧
    decode (smallImage.layout ++ [0]) = .error (.trailing 1 33) := by
  have h : decode smallImage.layout = .ok smallImage :=
    decode_ok_iff.mpr ⟨rfl, ⟨by decide, by decide, by decide, by decide⟩, rfl⟩
  obtain ⟨hcut, hmore, -⟩ := decode_cut_or_continued smallImage.layout smallImage h
  obtain ⟨need, offset, found, hfront, -⟩ := hcut (smallImage.layout.take 17) (List.take_prefix ..) (by decide)
  exact ⟨h, ⟨need, offset, found, hfront⟩, hmore [0] (by decide)⟩

end RegCode.Image
