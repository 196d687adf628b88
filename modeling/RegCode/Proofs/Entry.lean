import RegCode.Command.Repl
import RegCode.Proofs.Viable

/-!
# Entries that go on

The prompt asks for more of an entry whose last error is at its end. The end of a source is behind its composed
form, but the length of the entry is taken as it was typed. So an entry that is cut between two tokens of a text
without errors is asked more of, if it has errors and was not typed in more bytes than its composed form has.
-/

namespace RegCode

/-! ## The end of a source -/

theorem Kind.ofWord_ne_eof (w : Bytes) : Kind.ofWord w ≠ .eof := by
  unfold Kind.ofWord
  cases h : Kind.keywords.lookup w with
  | none => exact Kind.noConfusion
  | some k =>
    have hmem : ∀ p ∈ Kind.keywords, p.2 ≠ .eof := by decide
    obtain ⟨a, b, heq, -⟩ := List.lookup_eq_some_iff.mp h
    exact hmem (w, k) (heq ▸ List.mem_append_right a (.head b))

theorem Lexeme.stringRest_kind_ne_eof (acc : Bytes) (width : Nat) (text : Bytes) :
    (stringRest acc width text).kind ≠ .eof := by
  fun_induction stringRest acc width text with
  | case1 | case2 | case3 => exact Kind.noConfusion
  | case4 _ _ _ _ ih => exact ih
  | case5 _ _ _ _ _ _ _ ih => exact ih

theorem Lexeme.read_kind_ne_eof (b : UInt8) (rest : Bytes) : (read b rest).kind ≠ .eof := by
  have hpair : ∀ p, extensible? b = some p → p.1 ≠ .eof ∧ p.2 ≠ .eof := by
    intro p hp
    unfold extensible? at hp
    split at hp <;> cases hp <;> decide
  have hone : ∀ k, single? b = some k → k ≠ .eof := by
    intro k hk
    unfold single? at hk
    split at hk <;> cases hk <;> decide
  unfold read
  split
  · rename_i one two h
    split
    · exact (hpair _ h).2
    · exact (hpair _ h).1
  · split
    · rename_i k h
      exact hone k h
    · split
      · exact stringRest_kind_ne_eof [] 1 rest
      · split
        · exact Kind.ofWord_ne_eof _
        · split
          · unfold number
            dsimp only
            repeat' split
            all_goals exact Kind.noConfusion
          · unfold unexpected
            split <;> exact Kind.noConfusion

namespace Cursor

def stop (c : Cursor) : Int := c.pos.offset + c.rest.length

theorem stop_step (c : Cursor) : c.step.stop = c.stop := by
  obtain ⟨rest, p⟩ := c
  cases rest with
  | nil => rfl
  | cons b rest =>
    have hp : (past p b rest.isEmpty).offset = p.offset + 1 := by
      unfold past
      split <;> rfl
    simp only [stop, step, hp, List.length_cons]
    omega

theorem stop_advance (n : Nat) (c : Cursor) : (c.advance n).stop = c.stop := by
  induction n generalizing c with
  | zero => rfl
  | succ n ih => rw [advance, ih, stop_step]

theorem stop_nextToken (c : Cursor) : c.nextToken.2.stop = c.stop := by
  unfold nextToken
  dsimp only
  split
  · exact stop_advance ..
  · rw [stop_advance]
    exact stop_advance ..

theorem nextToken_eof (c : Cursor) (h : c.nextToken.1.kind = .eof) : c.nextToken.1.pos.offset = c.stop := by
  have hgap : c.skipGap.stop = c.stop := stop_advance ..
  cases hr : c.skipGap.rest with
  | nil =>
    rw [stop, hr] at hgap
    simpa [nextToken, hr] using hgap
  | cons b rest =>
    -- no lexeme is of the kind that marks an end
    simp only [nextToken, hr] at h
    exact absurd h (Lexeme.read_kind_ne_eof b rest)

theorem tokensOnto_stop (acc : List Token) (c : Cursor) :
    ∃ front eof, (c.tokensOnto acc).1 = front ++ [eof] ∧ eof.kind = .eof ∧ eof.pos.offset = c.stop := by
  fun_induction tokensOnto acc c with
  | case1 acc c next h => exact ⟨acc.reverse, next.1, List.reverse_cons, h, nextToken_eof c h⟩
  | case2 acc c next h ih =>
    obtain ⟨front, eof, heq, hk, hp⟩ := ih
    exact ⟨front, eof, heq, hk, hp.trans (stop_nextToken c)⟩

end Cursor

theorem tokenize_stop {source : Bytes} {front : List Token} {eof : Token} (h : tokenize source = front ++ [eof]) :
    eof.kind = .eof ∧ eof.pos.offset = (Text.Canonical.compose source).length := by
  obtain ⟨front', eof', heq, hk, hp⟩ := Cursor.tokensOnto_stop [] (.ofSource source)
  obtain ⟨-, hlast⟩ := List.append_inj' (h.symm.trans heq) rfl
  cases hlast
  refine ⟨hk, hp.trans ?_⟩
  exact Int.zero_add _

/-! ## Entries -/

theorem Text.length_trimEnd_le (drop : UInt8 → Bool) (b : Bytes) : (trimEnd drop b).length ≤ b.length := by
  rw [trimEnd, List.length_reverse]
  exact (List.dropWhile_sublist drop).length_le.trans_eq List.length_reverse

namespace Command

/-- Where all errors are at the end, an entry goes on if there are any and what was typed is no longer than its
composed form. -/
theorem incomplete_of_end {source : Bytes} {front : List Token} {eof : Token}
    (hs : tokenize source = front ++ [eof])
    (he : ∀ e ∈ (parse (front ++ [eof])).errors, e.pos = eof.pos ∧ e.lexeme = []) :
    incomplete source = true ↔ (parse (front ++ [eof])).errors ≠ [] ∧
      (Text.trimEnd (fun b => b == 32 || b == 9 || b == 10) source).length ≤
        (Text.Canonical.compose source).length := by
  have hstop := (tokenize_stop hs).2
  unfold incomplete parseSource
  rw [hs]
  cases hl : (parse (front ++ [eof])).errors.getLast? with
  | none =>
    simp [List.getLast?_eq_none_iff.mp hl]
  | some e =>
    obtain ⟨hpos, hlex⟩ := he e (List.mem_of_getLast? hl)
    have hne : (parse (front ++ [eof])).errors ≠ [] := by
      intro hnil
      rw [hnil] at hl
      cases hl
    simp [hlex, hpos, hstop, hne]

end Command

/-- Where tokens without errors are cut short, all errors are at the end, and an entry of such tokens goes on,
unless there are no errors or it was typed in more bytes than its composed form has. -/
theorem cut_short_errors_at_end (tokens front : List Token) (eof : Token) (h : (parse tokens).errors = [])
    (hfront : front <+: tokens) (hk : eof.kind = .eof) :
    (∀ e ∈ (parse (front ++ [eof])).errors, e.pos = eof.pos ∧ e.lexeme = []) ∧
      ∀ source, tokenize source = front ++ [eof] →
        (Command.incomplete source = true ↔ (parse (front ++ [eof])).errors ≠ [] ∧
          (Text.trimEnd (fun b => b == 32 || b == 9 || b == 10) source).length ≤
            (Text.Canonical.compose source).length) ∧
        (Text.Canonical.compose source = source →
          (Command.incomplete source = true ↔ (parse (front ++ [eof])).errors ≠ [])) := by
  have he := parse_cut_errors h hfront hk
  refine ⟨he, fun source hs => ?_⟩
  have hi := Command.incomplete_of_end hs he
  refine ⟨hi, fun hc => ?_⟩
  rw [hi, hc]
  exact and_iff_left (Text.length_trimEnd_le ..)

/-- The tokens of `print "é" +`, without the end. -/
def openSum : List Token :=
  [⟨.kwPrint, txt "print", ⟨0, 1, 1⟩⟩, ⟨.string, [0xc3, 0xa9], ⟨6, 1, 7⟩⟩, ⟨.plus, txt "+", ⟨11, 1, 12⟩⟩]

/-- The text, with the letter as one character or as a letter and an accent. -/
def openSumText (letter : Bytes) : Bytes := txt "print \"" ++ letter ++ txt "\" +"

theorem openSum_tokens : tokenize (openSumText [0xc3, 0xa9]) = openSum ++ [⟨.eof, [], ⟨12, 1, 13⟩⟩] ∧
    tokenize (openSumText [0x65, 0xcc, 0x81]) = openSum ++ [⟨.eof, [], ⟨12, 1, 13⟩⟩] := by
  constructor <;> decide +kernel

theorem openSum_goes_on : (parse (openSum ++ [⟨.eof, [], ⟨12, 1, 13⟩⟩])).errors ≠ [] ∧
    (∀ e ∈ (parse (openSum ++ [⟨.eof, [], ⟨12, 1, 13⟩⟩])).errors, e.pos = ⟨12, 1, 13⟩ ∧ e.lexeme = []) ∧
    Command.incomplete (openSumText [0xc3, 0xa9]) = true ∧
    Command.incomplete (openSumText [0x65, 0xcc, 0x81]) = false := by
  have hwhole : (parse (openSum ++ [⟨.int, txt "1", {}⟩, ⟨.semicolon, txt ";", {}⟩])).errors = [] := by
    decide +kernel
  have hne : (parse (openSum ++ [⟨.eof, [], ⟨12, 1, 13⟩⟩])).errors ≠ [] := by decide +kernel
  obtain ⟨he, hi⟩ := cut_short_errors_at_end _ openSum ⟨.eof, [], ⟨12, 1, 13⟩⟩ hwhole (List.prefix_append ..) rfl
  refine ⟨hne, he, ?_, ?_⟩
  · exact ((hi _ openSum_tokens.1).2 (by decide +kernel)).mpr hne
  · rw [← Bool.not_eq_true, (hi _ openSum_tokens.2).1]
    decide +kernel

end RegCode
