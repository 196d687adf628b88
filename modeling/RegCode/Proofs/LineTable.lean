import Mathlib.Data.List.Chain
import RegCode.Proofs.Emission

/-!
# The line table

A chunk is built by writing instructions, adding constants and completing jumps. Its table has an entry only where
the line changes, and still knows the line of every instruction: that of the last write up to there whose line was
known. The scan may stop at the first entry behind a place, because the offsets go up. Only a write adds to the
table, and what it adds stands behind all instructions written before.
-/

namespace RegCode

inductive Edit where
  | write (i : Instruction) (line : Int)
  | addConst (v : PoolValue)
  | patch (index : Nat) (d : Int16)

namespace Edit

def apply (c : Chunk) : Edit → Except Chunk.PatchFault Chunk
  | write i line => .ok (c.write i line)
  | addConst v => .ok (c.addConst v)
  | patch index d => c.patch index d

def written? : Edit → Option (Instruction × Int)
  | write i line => some (i, line)
  | addConst _ | patch .. => none

def run (edits : List Edit) : Except Chunk.PatchFault Chunk := edits.foldlM apply {}

/-- Behind the writes `seen`, displacements are set only in instructions that are there by then and are jumps. -/
def completesJumps (seen : List (Instruction × Int)) : List Edit → Bool
  | [] => true
  | write i line :: edits => completesJumps (seen ++ [(i, line)]) edits
  | addConst _ :: edits => completesJumps seen edits
  | patch index _ :: edits => seen[index]?.any (·.1.isJump) && completesJumps seen edits

end Edit

/-- The last of some lines that is known, and zero if none is. -/
def lastKnown (lines : List Int) : Int := ((lines.filter (0 < ·)).getLast?).getD 0

theorem lastKnown_concat (lines : List Int) (line : Int) :
    lastKnown (lines ++ [line]) = if 0 < line then line else lastKnown lines := by
  by_cases h : 0 < line <;> simp [lastKnown, h]

/-! ## Scanning -/

namespace Chunk

section
variable {offset : Int} {entries : List LineEntry}

theorem scanLine_concat_of_lt {e : LineEntry} (h : offset < e.offset) (line : Int) :
    (scanLine offset line (entries ++ [e])).1 = (scanLine offset line entries).1 := by
  induction entries generalizing line with
  | nil => simp [scanLine, h]
  | cons x entries ih =>
    by_cases hx : offset < x.offset
    · simp [scanLine, hx]
    · simp only [List.cons_append, scanLine, hx, ite_false]
      exact ih x.line

theorem scanLine_of_le (h : ∀ e ∈ entries, e.offset ≤ offset) (line : Int) :
    (scanLine offset line entries).1 = (entries.getLast?.map (·.line)).getD line := by
  induction entries generalizing line with
  | nil => rfl
  | cons x entries ih =>
    have hx : ¬ offset < x.offset := Int.not_lt.mpr (h x (by simp))
    simp only [scanLine, hx, ite_false]
    rw [ih (fun e he => h e (by simp [he])) x.line, List.getLast?_cons]
    cases entries.getLast? <;> rfl

end

/-! ## Tables -/

/-- The entries are a table of so many instructions. -/
structure Tabulates (entries : List LineEntry) (size : Nat) : Prop where
  offsets : entries.Pairwise (·.offset < ·.offset)
  inside : ∀ e ∈ entries, e.offset < size
  changes : entries.IsChain (·.line ≠ ·.line)
  known : ∀ e ∈ entries, 0 < e.line

namespace Tabulates

variable {entries : List LineEntry} {size : Nat}

theorem nil : Tabulates [] 0 := ⟨.nil, by simp, .nil, by simp⟩

theorem succ (h : Tabulates entries size) : Tabulates entries (size + 1) :=
  ⟨h.offsets, fun e he => Nat.lt_succ_of_lt (h.inside e he), h.changes, h.known⟩

theorem concat (h : Tabulates entries size) {line : Int} (hpos : 0 < line)
    (hne : ∀ e ∈ entries.getLast?, e.line ≠ line) : Tabulates (entries ++ [⟨size, line⟩]) (size + 1) := by
  refine ⟨?_, ?_, ?_, ?_⟩
  · rw [List.pairwise_append]
    refine ⟨h.offsets, List.pairwise_singleton .., ?_⟩
    intro e he x hx
    rw [List.mem_singleton.mp hx]
    exact h.inside e he
  · intro e he
    rcases List.mem_append.mp he with he | he
    · exact Nat.lt_succ_of_lt (h.inside e he)
    · rw [List.mem_singleton.mp he]
      exact Nat.lt_succ_self size
  · refine h.changes.append (.singleton _) ?_
    intro e he x hx
    cases hx
    exact hne e he
  · intro e he
    rcases List.mem_append.mp he with he | he
    · exact h.known e he
    · rw [List.mem_singleton.mp he]
      exact hpos

theorem scan_behind (h : Tabulates entries size) {i : Nat} (hi : size ≤ i + 1) :
    (scanLine i 0 entries).1 = (entries.getLast?.map (·.line)).getD 0 := by
  refine scanLine_of_le ?_ 0
  intro e he
  have := h.inside e he
  omega

end Tabulates

/-! ## One operation -/

/-- The chunk has been written to like this, and its table knows the lines. -/
structure Recorded (writes : List (Instruction × Int)) (c : Chunk) : Prop where
  opcodes : c.code.toList.map (·.opcode) = writes.map (·.1.opcode)
  table : Tabulates c.lines.toList writes.length
  lookup : ∀ i : Nat, c.lineFor i = lastKnown ((writes.map (·.2)).take (i + 1))

variable {writes : List (Instruction × Int)} {c c' : Chunk}

theorem recorded_empty : Recorded [] {} :=
  ⟨rfl, .nil, fun i => by simp [lineFor, scanLine, lastKnown]⟩

namespace Recorded

theorem size (h : Recorded writes c) : c.code.size = writes.length := by
  simpa using congrArg List.length h.opcodes

theorem lastLine (h : Recorded writes c) :
    (c.lines.toList.getLast?.map (·.line)).getD 0 = lastKnown (writes.map (·.2)) := by
  rw [← h.table.scan_behind (Nat.le_succ _)]
  have hlast := h.lookup writes.length
  rwa [List.take_of_length_le (by simp)] at hlast

theorem of_eq (h : Recorded writes c) (hcode : c'.code.toList.map (·.opcode) = c.code.toList.map (·.opcode))
    (hlines : c'.lines = c.lines) : Recorded writes c' := by
  refine ⟨hcode.trans h.opcodes, ?_, ?_⟩
  · rw [hlines]
    exact h.table
  · intro i
    have hsame : c'.lineFor i = c.lineFor i := by simp only [lineFor, hlines]
    rw [hsame, h.lookup]

end Recorded

theorem startsLine_iff {line : Int} :
    c.startsLine line = true ↔ 0 < line ∧ ∀ e ∈ c.lines.toList.getLast?, e.line ≠ line := by
  unfold startsLine
  rw [← Array.getLast?_toList]
  cases c.lines.toList.getLast? <;> simp

theorem lines_write (i : Instruction) (line : Int) : (c.write i line).lines.toList =
    if c.startsLine line then c.lines.toList ++ [⟨c.code.size, line⟩] else c.lines.toList := by
  by_cases h : c.startsLine line = true <;> simp [write, h]

theorem Recorded.lastKnown_of_not_startsLine (h : Recorded writes c) {line : Int}
    (hs : ¬ c.startsLine line = true) :
    lastKnown (writes.map (·.2) ++ [line]) = lastKnown (writes.map (·.2)) := by
  rw [lastKnown_concat]
  by_cases hpos : 0 < line
  · simp only [startsLine_iff, hpos, true_and, not_forall, not_not] at hs
    obtain ⟨e, he, rfl⟩ := hs
    rw [if_pos hpos, ← h.lastLine, Option.mem_def.mp he]
    rfl
  · rw [if_neg hpos]

theorem Recorded.write (h : Recorded writes c) (ins : Instruction) (line : Int) :
    Recorded (writes ++ [(ins, line)]) (c.write ins line) := by
  have hmap : (writes ++ [(ins, line)]).map (·.2) = writes.map (·.2) ++ [line] := by simp
  refine ⟨by simp [h.opcodes], ?_, ?_⟩
  · rw [lines_write, List.length_append, List.length_singleton]
    by_cases hs : c.startsLine line = true
    · obtain ⟨hpos, hne⟩ := startsLine_iff.mp hs
      rw [if_pos hs, h.size]
      exact h.table.concat hpos hne
    · rw [if_neg hs]
      exact h.table.succ
  · intro i
    rw [hmap, lineFor, lines_write]
    by_cases hi : i < writes.length
    · -- what is in front of the new instruction is looked up as before
      rw [List.take_append_of_le_length (by simpa using Nat.succ_le_of_lt hi), ← h.lookup]
      by_cases hs : c.startsLine line = true
      · rw [if_pos hs, scanLine_concat_of_lt (by simpa [h.size] using hi)]
        rfl
      · rw [if_neg hs]
        rfl
    · rw [List.take_of_length_le (by simp; omega)]
      by_cases hs : c.startsLine line = true
      · obtain ⟨hpos, hne⟩ := startsLine_iff.mp hs
        rw [if_pos hs, h.size, (h.table.concat hpos hne).scan_behind (by omega), lastKnown_concat, if_pos hpos]
        simp
      · rw [if_neg hs, h.table.scan_behind (by omega), h.lastLine, h.lastKnown_of_not_startsLine hs]

theorem patch_eq_ok {index : Nat} {i : Instruction} (hi : c.code[index]? = some i) (hj : i.isJump = true)
    (d : Int16) : c.patch index d = .ok (c.setSbx index d) := by
  simp [patch, patchFault?, hi, hj]

theorem opcode_setSbx (c : Chunk) (index : Nat) (d : Int16) :
    (c.setSbx index d).code.toList.map (·.opcode) = c.code.toList.map (·.opcode) := by
  apply List.ext_getElem?
  intro k
  simp only [setSbx, List.getElem?_map, Array.getElem?_toList, Array.getElem?_modify]
  by_cases hk : index = k
  · cases c.code[k]? <;> simp [hk, Instruction.withSbx_eq]
  · simp [hk]

/-- Where a jump was written there still is one, with any displacement. -/
theorem Recorded.jump_at (h : Recorded writes c) {index : Nat} {w : Instruction × Int}
    (hw : writes[index]? = some w) (hj : w.1.isJump = true) : ∃ i, c.code[index]? = some i ∧ i.isJump = true := by
  have hop := congrArg (·[index]?) h.opcodes
  simp only [List.getElem?_map, hw, Option.map_some, Array.getElem?_toList, Option.map_eq_some_iff] at hop
  obtain ⟨i, hi, hop⟩ := hop
  refine ⟨i, hi, ?_⟩
  rw [← hj, Instruction.isJump, Instruction.isJump, Instruction.op?, Instruction.op?, hop]

/-! ## Whole histories -/

theorem Recorded.run (h : Recorded writes c) {edits : List Edit} (hj : Edit.completesJumps writes edits = true) :
    ∃ c', edits.foldlM Edit.apply c = .ok c' ∧ Recorded (writes ++ edits.filterMap (·.written?)) c' := by
  induction edits generalizing writes c with
  | nil => exact ⟨c, rfl, by simpa using h⟩
  | cons e edits ih =>
    cases e with
    | write ins line =>
      obtain ⟨c', hrun, hc'⟩ := ih (h.write ins line) hj
      exact ⟨c', hrun, by simpa [Edit.written?] using hc'⟩
    | addConst v => exact ih (h.of_eq rfl rfl) hj
    | patch index d =>
      simp only [Edit.completesJumps, Bool.and_eq_true, Option.any_eq_true] at hj
      obtain ⟨⟨w, hw, hwj⟩, hj⟩ := hj
      obtain ⟨i, hi, hij⟩ := h.jump_at hw hwj
      obtain ⟨c', hrun, hc'⟩ := ih (h.of_eq (opcode_setSbx c index d) rfl) hj
      refine ⟨c', ?_, hc'⟩
      rw [List.foldlM_cons, Edit.apply, patch_eq_ok hi hij]
      exact hrun

end Chunk

/-- A history of a chunk in which only jumps are completed comes to an end. The offsets of the table then go up and
are inside the code, the lines of neighbours differ and are known, and the line of an instruction is the one that
was known last when it was written. -/
theorem line_table_lossless (edits : List Edit) (h : Edit.completesJumps [] edits = true) :
    ∃ c, Edit.run edits = .ok c ∧ c.code.size = (edits.filterMap (·.written?)).length ∧
      c.lines.toList.Pairwise (·.offset < ·.offset) ∧ (∀ e ∈ c.lines, e.offset < c.code.size) ∧
      c.lines.toList.IsChain (·.line ≠ ·.line) ∧ (∀ e ∈ c.lines, 0 < e.line) ∧
      ∀ i : Nat, c.lineFor i = lastKnown (((edits.filterMap (·.written?)).map (·.2)).take (i + 1)) := by
  obtain ⟨c, hrun, hc⟩ := Chunk.recorded_empty.run h
  rw [List.nil_append] at hc
  refine ⟨c, hrun, hc.size, hc.table.offsets, ?_, hc.table.changes, ?_, hc.lookup⟩
  · intro e he
    rw [hc.size]
    exact hc.table.inside e (Array.mem_toList_iff.mpr he)
  · intro e he
    exact hc.table.known e (Array.mem_toList_iff.mpr he)

/-- Lines that are repeated, not known and returned to, with a jump completed in between. -/
def returning : List Edit :=
  [.write (.asbx Op.jmp.code 0 0) 3, .write (.abc Op.load.code 1 0 0) 3, .addConst .absent,
   .write (.abx Op.loadK.code 0 0) 0, .write (.abc Op.print.code 1 0 0) 5, .patch 0 4,
   .write (.abc Op.print.code 0 0 0) (-1), .write (.abc Op.halt.code 0 0 0) 3]

theorem returning_lines : Edit.completesJumps [] returning = true ∧ ∃ c, Edit.run returning = .ok c ∧
    c.code.size = 6 ∧ (List.range 6).map (fun i : Nat => c.lineFor i) = [3, 3, 3, 5, 5, 3] := by
  have hj : Edit.completesJumps [] returning = true := by decide
  obtain ⟨c, hrun, hsize, -, -, -, -, hlines⟩ := line_table_lossless returning hj
  refine ⟨hj, c, hrun, hsize, ?_⟩
  simp only [hlines]
  decide

end RegCode
