import RegCode.Chunk.Listing
import RegCode.Proofs.Legible
import RegCode.Proofs.RegisterCount

/-!
# Listings are faithful

A listing has a header and then a row for each instruction. From the row of an instruction its source line and its
word can be read again, whatever the constants are: the index is known from the place of the row, the source line
stands in front of a blank, the name has a width of its own, and the operands are numbers with something else
between them. Only operand bytes without a meaning are not shown. In compiled code they are zero.
-/

namespace RegCode

theorem Op.mem_all (op : Op) : op ∈ Op.all := by
  cases op with
  | compare k => cases k <;> decide
  | _ => decide

namespace Instruction

/-- The operand bytes without a meaning are zero. -/
def Tidy (i : Instruction) : Prop := ∀ b ∈ i.op?.elim [] (·.idle i), b = 0

instance (i : Instruction) : Decidable i.Tidy := inferInstanceAs (Decidable (∀ b ∈ i.op?.elim [] (·.idle i), b = 0))

variable {i j : Instruction}

theorem tidy_iff {op : Op} (h : i.op? = some op) : i.Tidy ↔ ∀ b ∈ op.idle i, b = 0 := by
  rw [Tidy, h]
  rfl

theorem opcode_of_op? {op : Op} (h : i.op? = some op) : i.opcode = op.code := by
  have hfind : Op.all.find? (fun op => op.code == i.opcode) = some op := h
  have hcode := List.find?_some hfind
  exact (beq_iff_eq.mp hcode).symm

theorem eq_of_sbx (hop : i.opcode = j.opcode) (ha : i.a = j.a) (hs : i.sbx = j.sbx) : i = j := by
  rw [← asbx_fields i, ← asbx_fields j, hop, ha, hs]

theorem eq_of_bx (hop : i.opcode = j.opcode) (ha : i.a = j.a) (hbx : i.bx = j.bx) : i = j :=
  eq_of_sbx hop ha (by rw [sbx, sbx, hbx])

theorem eq_of_bytes (hop : i.opcode = j.opcode) (ha : i.a = j.a) (hb : i.b = j.b) (hc : i.c = j.c) : i = j := by
  refine eq_of_bx hop ha (UInt16.toNat_inj.mp ?_)
  have hb' := congrArg UInt8.toNat hb
  have hc' := congrArg UInt8.toNat hc
  simp only [b, c, bx, UInt8.toNat_ofNat', UInt16.toNat_ofNat'] at hb' hc' ⊢
  omega

end Instruction

namespace Chunk

/-! ## Operands -/

/-- What stands in a listing apart from numbers, constants and the names of operations. -/
def marks : List Bytes :=
  [txt "r", txt ", ", txt " ; -> ", txt " ; const[", txt "]=", txt "<invalid>", txt "UNKNOWN 0x", txt "; raw=0x",
    txt "func main (consts=", txt ", registers=", txt ", instructions=", txt ")"]

theorem marks_spec : ∀ t ∈ marks, Text.OneLine t ∧ t.head?.any (fun x => !Text.isDigit x) = true := by
  decide +kernel

theorem oneLine_mark {t : Bytes} (h : t ∈ marks) : Text.OneLine t := (marks_spec t h).1

theorem noDigit_mark {t : Bytes} (h : t ∈ marks) (rest : Bytes) : Text.NoDigit (t ++ rest) := by
  have hhead := (marks_spec t h).2
  cases t with
  | nil => cases hhead
  | cons b t =>
    intro x hx
    cases hx
    simpa using hhead

theorem registerName_legible : Text.Legible registerName :=
  (Text.decimal_legible.comp fun _ _ => UInt8.toNat_inj.mp).behind (txt "r")

theorem operandList_cons (x y : Bytes) (l : List Bytes) :
    operandList (x :: y :: l) = x ++ (txt ", " ++ operandList (y :: l)) := by
  simp [operandList, Text.join]

theorem operandList_singleton (x : Bytes) : operandList [x] = x := by simp [operandList, Text.join]

/-- The first of several operands tells itself and what follows. -/
theorem operandList_inj {α : Type} {write : α → Bytes} (hw : Text.Legible write) {a a' : α} {y y' : Bytes}
    {l l' : List Bytes} (h : operandList (write a :: y :: l) = operandList (write a' :: y' :: l')) :
    a = a' ∧ operandList (y :: l) = operandList (y' :: l') := by
  rw [operandList_cons, operandList_cons] at h
  obtain ⟨ha, hrest⟩ := hw a a' _ _ (noDigit_mark (by simp [marks]) _) (noDigit_mark (by simp [marks]) _) h
  exact ⟨ha, List.append_cancel_left hrest⟩

theorem jumpText_inj {index : Nat} {d d' : Int16} (h : jumpText index d = jumpText index d') : d = d' := by
  simp only [jumpText, List.append_assoc] at h
  exact Int16.toInt_inj.mp (Text.signed_legible _ _ _ _ (noDigit_mark (by simp [marks]) _)
    (noDigit_mark (by simp [marks]) _) h).1

section
variable {c c' : Chunk} {index : Nat} {i j : Instruction} {op : Op}

theorem operands_loadK_inj (h : c.operands index i .loadK = c'.operands index j .loadK) :
    i.a = j.a ∧ i.bx = j.bx := by
  simp only [operands, operandList_cons, operandList_singleton, List.append_assoc] at h
  obtain ⟨ha, h⟩ := registerName_legible _ _ _ _ (noDigit_mark (by simp [marks]) _)
    (noDigit_mark (by simp [marks]) _) h
  obtain ⟨hbx, -⟩ := Text.decimal_legible _ _ _ _ (noDigit_mark (by simp [marks]) _)
    (noDigit_mark (by simp [marks]) _) (List.append_cancel_left h)
  exact ⟨ha, UInt16.toNat_inj.mp hbx⟩

theorem operands_inj (hi : i.op? = some op) (hj : j.op? = some op) (ti : i.Tidy) (tj : j.Tidy)
    (h : c.operands index i op = c'.operands index j op) : i = j := by
  have hop : i.opcode = j.opcode := (Instruction.opcode_of_op? hi).trans (Instruction.opcode_of_op? hj).symm
  have hidle := (Instruction.tidy_iff hi).mp ti
  have hidle' := (Instruction.tidy_iff hj).mp tj
  cases op with
  | halt =>
    simp only [Op.idle, List.forall_mem_cons] at hidle hidle'
    exact Instruction.eq_of_bytes hop (by rw [hidle.1, hidle'.1]) (by rw [hidle.2.1, hidle'.2.1])
      (by rw [hidle.2.2.1, hidle'.2.2.1])
  | loadK =>
    obtain ⟨ha, hbx⟩ := operands_loadK_inj h
    exact Instruction.eq_of_bx hop ha hbx
  | load =>
    simp only [Op.idle, List.forall_mem_cons] at hidle hidle'
    obtain ⟨ha, h⟩ := operandList_inj registerName_legible h
    rw [operandList_singleton, operandList_singleton] at h
    exact Instruction.eq_of_bytes hop ha (registerName_legible.inj h) (by rw [hidle.1, hidle'.1])
  | add | sub | mul | div | compare _ =>
    obtain ⟨ha, h⟩ := operandList_inj registerName_legible h
    obtain ⟨hb, h⟩ := operandList_inj registerName_legible h
    rw [operandList_singleton, operandList_singleton] at h
    exact Instruction.eq_of_bytes hop ha hb (registerName_legible.inj h)
  | jmp =>
    simp only [Op.idle, List.forall_mem_cons] at hidle hidle'
    exact Instruction.eq_of_sbx hop (by rw [hidle.1, hidle'.1]) (jumpText_inj h)
  | jmpIf | jmpIfNot =>
    obtain ⟨ha, h⟩ := operandList_inj registerName_legible h
    rw [operandList_singleton, operandList_singleton] at h
    exact Instruction.eq_of_sbx hop ha (jumpText_inj h)
  | call =>
    obtain ⟨ha, h⟩ := operandList_inj registerName_legible h
    obtain ⟨hb, h⟩ := operandList_inj registerName_legible h
    rw [operandList_singleton, operandList_singleton] at h
    exact Instruction.eq_of_bytes hop ha hb (UInt8.toNat_inj.mp (Text.decimal_legible.inj h))
  | ret | print =>
    simp only [Op.idle, List.forall_mem_cons] at hidle hidle'
    exact Instruction.eq_of_bytes hop (registerName_legible.inj h) (by rw [hidle.1, hidle'.1])
      (by rw [hidle.2.1, hidle'.2.1])

end

/-! ## Names -/

/-- The names are different and fit their column. None begins as that of an opcode without a meaning. -/
theorem names_spec : ∀ op ∈ Op.all, Text.OneLine op.name ∧ op.name.length ≤ 12 ∧
    (Text.padRight 12 op.name).head? ≠ (txt "UNKNOWN 0x").head? ∧
    ∀ op' ∈ Op.all, Text.padRight 12 op.name = Text.padRight 12 op'.name → op = op' := by
  decide +kernel

theorem length_unknown : (txt "UNKNOWN 0x").length = 10 := by decide +kernel

theorem length_name (c : Chunk) (index : Nat) (i : Instruction) :
    (Text.padRight 12 (c.mnemonic index i).1).length = 12 := by
  have hle : (c.mnemonic index i).1.length ≤ 12 := by
    unfold mnemonic
    split
    · rename_i op _
      exact (names_spec op op.mem_all).2.1
    · rw [List.length_append, Text.hexUpper, Text.length_hexWith, length_unknown]
  rw [Text.padRight, List.length_append, List.length_replicate]
  omega

theorem name_inj {op op' : Op} (h : Text.padRight 12 op.name = Text.padRight 12 op'.name) : op = op' :=
  (names_spec op op.mem_all).2.2.2 op' op'.mem_all h

theorem name_ne_unknown (op : Op) (code : Bytes) :
    Text.padRight 12 op.name ≠ Text.padRight 12 (txt "UNKNOWN 0x" ++ code) := by
  intro h
  refine (names_spec op op.mem_all).2.2.1 ?_
  have hne : txt "UNKNOWN 0x" ≠ [] := List.ne_nil_of_length_pos (by rw [length_unknown]; decide)
  rw [h, Text.padRight, List.append_assoc, List.head?_append_of_ne_nil _ hne]

theorem mnemonic_inj {c c' : Chunk} {index : Nat} {i j : Instruction} (ti : i.Tidy) (tj : j.Tidy)
    (hname : Text.padRight 12 (c.mnemonic index i).1 = Text.padRight 12 (c'.mnemonic index j).1)
    (hoperands : (c.mnemonic index i).2 = (c'.mnemonic index j).2) : i = j := by
  unfold mnemonic at hname hoperands
  cases hi : i.op? with
  | some op =>
    cases hj : j.op? with
    | some op' =>
      rw [hi, hj] at hname hoperands
      cases name_inj hname
      exact operands_inj hi hj ti tj hoperands
    | none =>
      rw [hi, hj] at hname
      exact absurd hname (name_ne_unknown op _)
  | none =>
    cases hj : j.op? with
    | some op' =>
      rw [hi, hj] at hname
      exact absurd hname.symm (name_ne_unknown op' _)
    | none =>
      rw [hi, hj] at hoperands
      have hword := Text.hexUpper_inj i.word.toNat_lt j.word.toNat_lt (List.append_cancel_left hoperands)
      exact congrArg Instruction.mk (UInt32.toNat_inj.mp hword)

/-! ## Rows -/

theorem txt_columns : txt " " = [32] ∧ txt "\n" = [Text.newline] ∧ txt "-" = [45] := by decide +kernel

/-- A source line that is known is written in digits, any other as a dash. -/
theorem lineText_cases (line : Int) :
    (∃ n : Nat, line = n ∧ lineText line = Text.decimal n) ∨ max 0 line = 0 ∧ lineText line = [45] := by
  by_cases h : 0 < line
  · obtain ⟨n, rfl⟩ := Int.eq_ofNat_of_zero_le (Int.le_of_lt h)
    exact .inl ⟨n, rfl, if_pos h⟩
  · refine .inr ⟨by omega, ?_⟩
    rw [lineText, if_neg h, txt_columns.2.2]

theorem lineText_inj {line line' : Int} (h : lineText line = lineText line') : max 0 line = max 0 line' := by
  have hdash (n : Nat) : Text.decimal n ≠ [45] := by
    have := Text.decimal_ne_cons (n := n) (b := 45) (by decide) [] []
    rwa [List.append_nil] at this
  rcases lineText_cases line with ⟨n, rfl, hn⟩ | ⟨h0, hn⟩
  · rcases lineText_cases line' with ⟨m, rfl, hm⟩ | ⟨-, hm⟩
    · rw [hn, hm] at h
      rw [Text.decimal_legible.inj h]
    · exact absurd (hn.symm.trans (h.trans hm)) (hdash n)
  · rcases lineText_cases line' with ⟨m, rfl, hm⟩ | ⟨h0', -⟩
    · exact absurd (hm.symm.trans (h.symm.trans hn)) (hdash m)
    · rw [h0, h0']

theorem lineText_ne_nil (line : Int) : lineText line ≠ [] := by
  rcases lineText_cases line with ⟨n, -, hn⟩ | ⟨-, hn⟩
  · rw [hn]
    exact List.ne_nil_of_length_pos (Text.length_decimal_pos n)
  · rw [hn]
    exact List.cons_ne_nil _ _

theorem lineText_ne_blank (line : Int) : ∀ x ∈ lineText line, x ≠ 32 := by
  rcases lineText_cases line with ⟨n, -, hn⟩ | ⟨-, hn⟩
  · rw [hn]
    rintro x hx rfl
    exact absurd (Text.decimal_isDigit n 32 hx) (by decide)
  · rw [hn]
    simp

def instructionRow (c : Chunk) (line : Int) (index : Nat) (i : Instruction) : Bytes :=
  Text.zeroPadded 4 index ++ 32 :: (Text.padLeft 4 32 (lineText line) ++ 32 ::
    (Text.padRight 12 (c.mnemonic index i).1 ++
      if (c.mnemonic index i).2.isEmpty then [] else 32 :: (c.mnemonic index i).2))

theorem instructionText_eq (c : Chunk) (line : Int) (index : Nat) (i : Instruction) :
    c.instructionText line index i = c.instructionRow line index i ++ [Text.newline] := by
  simp only [instructionText, instructionRow, txt_columns, List.append_assoc, List.cons_append, List.nil_append]

theorem instructionRow_inj {c c' : Chunk} {line line' : Int} {index : Nat} {i j : Instruction} (ti : i.Tidy)
    (tj : j.Tidy) (h : c.instructionRow line index i = c'.instructionRow line' index j) :
    max 0 line = max 0 line' ∧ i = j := by
  have hcolumns := (List.cons.inj (List.append_cancel_left h)).2
  obtain ⟨hline, hrest⟩ := Text.padLeft_append_inj (lineText_ne_blank line) (lineText_ne_blank line')
    (lineText_ne_nil line) (lineText_ne_nil line') hcolumns
  obtain ⟨hname, hoperands⟩ := List.append_inj hrest ((length_name ..).trans (length_name ..).symm)
  refine ⟨lineText_inj hline, mnemonic_inj ti tj hname ?_⟩
  by_cases he : (c.mnemonic index i).2 = []
  · by_cases he' : (c'.mnemonic index j).2 = []
    · rw [he, he']
    · simp [he, he'] at hoperands
  · by_cases he' : (c'.mnemonic index j).2 = []
    · simp [he, he'] at hoperands
    · simpa [he, he'] using hoperands

/-! ## No row is broken -/

theorem oneLine_registerName (r : UInt8) : Text.OneLine (registerName r) :=
  .append (oneLine_mark (by simp [marks])) (.decimal _)

theorem oneLine_operandList {l : List Bytes} (h : ∀ x ∈ l, Text.OneLine x) : Text.OneLine (operandList l) := by
  induction l with
  | nil => exact .nil
  | cons x l ih =>
    rw [List.forall_mem_cons] at h
    cases l with
    | nil =>
      rw [operandList_singleton]
      exact h.1
    | cons y l =>
      rw [operandList_cons]
      exact h.1.append (.append (oneLine_mark (by simp [marks])) (ih h.2))

theorem oneLine_jumpText (index : Nat) (d : Int16) : Text.OneLine (jumpText index d) :=
  .append (.append (.signed _) (oneLine_mark (by simp [marks]))) (.zeroPadded _ _)

theorem oneLine_constRef (c : Chunk) (k : Nat) : Text.OneLine (c.constRef k) := by
  unfold constRef
  split
  · exact PoolValue.oneLine_render _
  · exact oneLine_mark (by simp [marks])

theorem oneLine_operands (c : Chunk) (index : Nat) (i : Instruction) (op : Op) :
    Text.OneLine (c.operands index i op) := by
  cases op with
  | halt => exact .nil
  | loadK =>
    refine .append (.append (.append (.append ?_ ?_) (.decimal _)) ?_) (c.oneLine_constRef _)
    · exact oneLine_operandList (by simp [oneLine_registerName, Text.OneLine.decimal])
    · exact oneLine_mark (by simp [marks])
    · exact oneLine_mark (by simp [marks])
  | load => exact oneLine_operandList (by simp [oneLine_registerName])
  | add | sub | mul | div | compare _ => exact oneLine_operandList (by simp [oneLine_registerName])
  | jmp => exact oneLine_jumpText _ _
  | jmpIf | jmpIfNot => exact oneLine_operandList (by simp [oneLine_registerName, oneLine_jumpText])
  | call => exact oneLine_operandList (by simp [oneLine_registerName, Text.OneLine.decimal])
  | ret | print => exact oneLine_registerName _

theorem oneLine_mnemonic (c : Chunk) (index : Nat) (i : Instruction) :
    Text.OneLine (c.mnemonic index i).1 ∧ Text.OneLine (c.mnemonic index i).2 := by
  unfold mnemonic
  split
  · rename_i op _
    exact ⟨(names_spec op op.mem_all).1, c.oneLine_operands index i op⟩
  · exact ⟨.append (oneLine_mark (by simp [marks])) (.hexUpper _ _),
      .append (oneLine_mark (by simp [marks])) (.hexUpper _ _)⟩

theorem oneLine_lineText (line : Int) : Text.OneLine (lineText line) := by
  rcases lineText_cases line with ⟨n, -, hn⟩ | ⟨-, hn⟩
  · rw [hn]
    exact .decimal n
  · rw [hn]
    decide

theorem oneLine_instructionRow (c : Chunk) (line : Int) (index : Nat) (i : Instruction) :
    Text.OneLine (c.instructionRow line index i) := by
  obtain ⟨hname, hoperands⟩ := c.oneLine_mnemonic index i
  refine .append (.zeroPadded _ _) (.cons (by decide) (.append ?_ (.cons (by decide) (.append ?_ ?_))))
  · exact .padLeft (by decide) _ (oneLine_lineText line)
  · exact .padRight _ hname
  · split
    · exact .nil
    · exact .cons (by decide) hoperands

/-! ## Whole listings -/

def headerRow (c : Chunk) : Bytes :=
  txt "func main (consts=" ++ (Text.decimal c.consts.size ++ (txt ", registers=" ++ (Text.integer c.registers ++
    (txt ", instructions=" ++ (Text.decimal c.code.size ++ txt ")")))))

theorem headerText_eq (c : Chunk) : c.headerText (txt "main") = c.headerRow ++ [Text.newline] := by
  have hparts : txt "func " ++ (txt "main" ++ txt " (consts=") = txt "func main (consts=" ∧
      (txt "main").isEmpty = false ∧ txt ")\n" = txt ")" ++ [Text.newline] := by
    decide +kernel
  obtain ⟨hfront, hname, hback⟩ := hparts
  simp only [headerText, headerRow, hname, hback, ← hfront, List.append_assoc]
  simp

theorem headerRow_inj {c c' : Chunk} (h : c.headerRow = c'.headerRow) : c.registers = c'.registers := by
  obtain ⟨-, h⟩ := Text.decimal_legible _ _ _ _ (noDigit_mark (by simp [marks]) _)
    (noDigit_mark (by simp [marks]) _) (List.append_cancel_left h)
  exact (Text.integer_legible _ _ _ _ (noDigit_mark (by simp [marks]) _)
    (noDigit_mark (by simp [marks]) _) (List.append_cancel_left h)).1

theorem oneLine_headerRow (c : Chunk) : Text.OneLine c.headerRow := by
  refine .append ?_ (.append (.decimal _)
    (.append ?_ (.append (.integer _) (.append ?_ (.append (.decimal _) ?_)))))
  all_goals exact oneLine_mark (by simp [marks])

def rows (c : Chunk) : List Bytes := c.code.toList.mapIdx fun k i => c.instructionRow (c.lineFor k) k i

theorem length_rows (c : Chunk) : c.rows.length = c.code.size := by simp [rows]

theorem getElem?_rows (c : Chunk) (k : Nat) :
    c.rows[k]? = c.code[k]?.map fun i => c.instructionRow (c.lineFor k) k i := by
  simp [rows]

theorem oneLine_row {c : Chunk} {row : Bytes} (h : row ∈ c.rows) : Text.OneLine row := by
  obtain ⟨k, hk⟩ := List.mem_iff_getElem?.mp h
  rw [getElem?_rows] at hk
  obtain ⟨i, -, rfl⟩ := Option.map_eq_some_iff.mp hk
  exact c.oneLine_instructionRow _ _ _

theorem oneLine_of_mem_listing (c : Chunk) : ∀ row ∈ c.headerRow :: c.rows, Text.OneLine row := by
  rw [List.forall_mem_cons]
  exact ⟨c.oneLine_headerRow, fun _ => oneLine_row⟩

/-- Going on in the table from instruction to instruction finds the lines that a look-up finds. -/
theorem flatten_instructionsOnto (c : Chunk) (acc : List Bytes) (index : Nat) (line : Int)
    (entries : List LineEntry) (code : List Instruction)
    (h : ∀ j : Nat, index ≤ j → scanLine j line entries = scanLine j 0 c.lines.toList) :
    (c.instructionsOnto acc index line entries code).flatten = acc.reverse.flatten ++
      Text.unlines (code.mapIdx fun k i => c.instructionRow (c.lineFor (index + k : Nat)) (index + k) i) := by
  induction code generalizing acc index line entries with
  | nil => simp [instructionsOnto, Text.unlines]
  | cons i code ih =>
    have hstep : ∀ j : Nat, index + 1 ≤ j →
        scanLine j (scanLine index line entries).1 (scanLine index line entries).2 =
        scanLine j 0 c.lines.toList := by
      intro j hj
      rw [scanLine_scanLine (by omega), h j (by omega)]
    have hline : (scanLine index line entries).1 = c.lineFor index := by rw [h index (Nat.le_refl _), lineFor]
    rw [instructionsOnto]
    simp only
    rw [ih _ _ _ _ hstep, hline]
    simp [Text.unlines, instructionText_eq, List.mapIdx_cons, Nat.add_assoc, Nat.add_comm 1]

theorem listing_eq (c : Chunk) : c.listing = Text.unlines (c.headerRow :: c.rows) := by
  rw [listing, codeSection, headerText_eq, flatten_instructionsOnto _ _ _ _ _ _ fun _ _ => rfl]
  simp [Text.unlines, rows]

end Chunk

theorem Compiled.tidy {p : Program} {c : Chunk} {F : Fragment} (h : Compiled p c F) {i : Instruction}
    (hi : i ∈ c.code) :
    i.Tidy := by
  obtain ⟨op, hs⟩ := h.instruction_sound hi
  exact (Instruction.tidy_iff hs.decodes).mpr hs.idle

/-- A listing has a header and a line for each instruction, which begins with the index. Where the operand bytes
without a meaning are zero, as in compiled code, it tells the code, the number of registers and the source lines
that are known. -/
theorem listing_faithful (c : Chunk) :
    (∃ header rows, c.listing = Text.unlines (header :: rows) ∧ (∀ row ∈ header :: rows, Text.OneLine row) ∧
      header ++ [Text.newline] = c.headerText (txt "main") ∧ rows.length = c.code.size ∧
      ∀ (k : Nat) (row : Bytes), rows[k]? = some row → Text.zeroPadded 4 k ++ [32] <+: row) ∧
    (∀ c' : Chunk, (∀ i ∈ c.code, i.Tidy) → (∀ i ∈ c'.code, i.Tidy) → c.listing = c'.listing →
      c.code = c'.code ∧ c.registers = c'.registers ∧
        ∀ k : Nat, k < c.code.size → max 0 (c.lineFor k) = max 0 (c'.lineFor k)) ∧
    ∀ p, (compile p).result = .ok c → ∀ i ∈ c.code, i.Tidy := by
  refine ⟨⟨c.headerRow, c.rows, c.listing_eq, c.oneLine_of_mem_listing, c.headerText_eq.symm, c.length_rows, ?_⟩,
    ?_, ?_⟩
  · intro k row hrow
    rw [Chunk.getElem?_rows] at hrow
    obtain ⟨i, -, rfl⟩ := Option.map_eq_some_iff.mp hrow
    exact ⟨_, by rw [List.append_assoc]; rfl⟩
  · intro c' ht ht' h
    rw [c.listing_eq, c'.listing_eq] at h
    obtain ⟨hheader, hrows⟩ := List.cons.inj
      (Text.unlines_inj c.oneLine_of_mem_listing c'.oneLine_of_mem_listing h)
    have hsize : c.code.size = c'.code.size := by rw [← c.length_rows, hrows, c'.length_rows]
    -- Row by row, each of which tells its line and its instruction.
    have hrow (k : Nat) (hk : k < c.code.size) (hk' : k < c'.code.size) :
        max 0 (c.lineFor k) = max 0 (c'.lineFor k) ∧ c.code[k] = c'.code[k] := by
      have heq := congrArg (·[k]?) hrows
      simp only [Chunk.getElem?_rows, Array.getElem?_eq_getElem hk, Array.getElem?_eq_getElem hk'] at heq
      exact Chunk.instructionRow_inj (ht _ (Array.getElem_mem _)) (ht' _ (Array.getElem_mem _))
        (Option.some.inj heq)
    exact ⟨Array.ext hsize fun k hk hk' => (hrow k hk hk').2, Chunk.headerRow_inj hheader,
      fun k hk => (hrow k hk (hsize ▸ hk)).1⟩
  · intro p hp i hi
    obtain ⟨F, hF⟩ := compile_compiled hp
    exact hF.tidy hi

/-- A load from the pool and the end of the code, with a table of lines. -/
def loading (lines : Array LineEntry) : Chunk where
  code := #[.abx Op.loadK.code 0 0, .abc Op.halt.code 0 0 0]
  consts := #[.const (.int 7)]
  lines := lines
  registers := 1

/-- A line that is not positive is not told from none. -/
theorem loading_faithful :
    (loading #[⟨0, -1⟩, ⟨1, 2⟩]).listing = (loading #[⟨1, 2⟩]).listing ∧
    (loading #[⟨0, -1⟩, ⟨1, 2⟩]).lineFor 0 ≠ (loading #[⟨1, 2⟩]).lineFor 0 ∧
    ∀ k : Nat, k < 2 → max 0 ((loading #[⟨0, -1⟩, ⟨1, 2⟩]).lineFor k) = max 0 ((loading #[⟨1, 2⟩]).lineFor k) := by
  have htidy (lines : Array LineEntry) : ∀ i ∈ (loading lines).code, i.Tidy := by
    show ∀ i ∈ (loading #[]).code, i.Tidy
    decide +kernel
  have h : (loading #[⟨0, -1⟩, ⟨1, 2⟩]).listing = (loading #[⟨1, 2⟩]).listing := by decide +kernel
  exact ⟨h, by decide, ((listing_faithful _).2.1 _ (htidy _) (htidy _) h).2.2⟩

end RegCode
