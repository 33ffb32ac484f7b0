import Asm16.Proofs.Layout
import Asm16.Proofs.PrintedForm
import Asm16.Proofs.Symbolization

namespace Asm16

variable {source : String} {line text mnemonic : List Char} {row : Row} {tokens : List (List Char)}

/-- A mnemonic of the row, in letters of either case, and tokens: divided by commas, with blanks
around them. -/
inductive RowText : List Char → Row → List (List Char) → Prop
  | mk {text mnemonic : List Char} {pieces tokens : List (List Char)} {row : Row}
      (cut : Pieces ',' text pieces) (trimmed : List.Forall₂ Trimmed pieces (mnemonic :: tokens))
      (member : row ∈ Row.all)
      (letters : row.mnemonic.toList.map Char.toLower = mnemonic.map Char.toLower) :
      RowText text row tokens

theorem table_letters_no_colon :
    ':' ∉ Row.all.flatMap fun row => row.mnemonic.toList.map Char.toLower := by
  decide

theorem colon_not_mem_mnemonic (member : row ∈ Row.all)
    (letters : row.mnemonic.toList.map Char.toLower = mnemonic.map Char.toLower) : ':' ∉ mnemonic :=
  fun inside => table_letters_no_colon (toLower_mem_table_letters member letters inside)

theorem mnemonic_ne_nil (member : row ∈ Row.all)
    (letters : row.mnemonic.toList.map Char.toLower = mnemonic.map Char.toLower) : mnemonic ≠ [] := by
  rintro rfl
  have plain := List.all_eq_true.mp mnemonics_plain row member
  simp only [Bool.and_eq_true, decide_eq_true_eq] at plain
  exact plain.1 (by simpa using letters)

namespace RowText

variable (form : RowText text row tokens)
include form

theorem mem_all : row ∈ Row.all := by
  obtain ⟨_, _, member, _⟩ := form
  exact member

theorem ne_nil : text ≠ [] := by
  obtain ⟨cut, trimmed, member, letters⟩ := form
  rintro rfl
  rw [← splitOn_eq_iff] at cut
  subst cut
  obtain ⟨_, _, first, _, same⟩ := List.forall₂_cons_left_iff.mp trimmed
  cases same
  exact mnemonic_ne_nil member letters first.text_trim.symm

/-- A colon before the first comma would stand in the mnemonic. -/
theorem splitLabel?_eq_none : splitLabel? text = none := by
  obtain ⟨cut, trimmed, member, letters⟩ := form
  rw [splitLabel?_eq_none_iff]
  intro before after same
  by_contra noComma
  subst same
  obtain ⟨piece, _, first, _, rfl⟩ := List.forall₂_cons_right_iff.mp trimmed
  have colon : ':' ∈ piece := cut.mem_first noComma (by decide)
  exact colon_not_mem_mnemonic member letters (first.mem_of_mem colon (by decide))

theorem readInstr_eq (count : tokens.length = row.opcode.layout.operands.length) :
    readInstr text =
      (row.opcode.layout.operands.zip tokens).mapM (fun pair => pair.1.readOperand pair.2) >>=
        fun operands => (Instr.ofOperands row operands).mapError .build := by
  obtain ⟨cut, trimmed, member, letters⟩ := form
  exact readInstr_eq_bind cut trimmed member letters count

theorem exists_instr {operands : List Operand}
    (accepted : OperandTokens row.opcode.layout.operands tokens operands) :
    ∃ instr, readInstr text = .ok instr ∧ instr.row = .ok row ∧ instr.operands = operands := by
  obtain ⟨instr, built⟩ := Row.exists_ofOperands form.mem_all accepted.suits
  have count := accepted.length_eq
  refine ⟨instr, ?_, (Instr.ofOperands_eq_ok_iff_row form.mem_all).mp built⟩
  rw [form.readInstr_eq count, (mapM_readOperand_eq_ok_iff count).mpr accepted]
  exact mapError_eq_ok_iff.mpr built

end RowText

theorem parseLineAt_of_unlabelled {index : Nat} (unlabelled : splitLabel? (lineText line) = none)
    (nonempty : lineText line ≠ []) :
    parseLineAt (line, index) =
      ((readInstr (lineText line)).map fun instr => [.stmt ⟨instr, index + 1, String.ofList line⟩]).mapError
        (⟨index + 1, String.ofList line, ·⟩) := by
  rw [parseLineAt, readLine_eq_map, readParts, unlabelled]
  simp only [readInstr?, if_neg nonempty, map_map]
  rfl

theorem Program.parseWith_of_lines (single : Lines source.toList [line]) (reporting : Reporting) :
    parseWith reporting source = ((parseLineAt (line, 0)).map Program.mk).mapError .parse := by
  have listed : sourceLines source = [(line, 0)] := by
    rw [sourceLines, single.text_lines]
    rfl
  rw [parseWith_eq, listed, Reporting.traverse_singleton]
  cases parseLineAt (line, 0) with
  | error error => rfl
  | ok items => exact congrArg (fun items => Except.ok (Program.mk items)) (List.append_nil items)

/-- A source of one line, which holds a mnemonic of the row and tokens, and may hold a comment. -/
structure StatementText (source : String) (line : List Char) (row : Row) (tokens : List (List Char)) :
    Prop where
  single : Lines source.toList [line]
  form : ∃ kept text, Uncommented line kept ∧ Trimmed kept text ∧ RowText text row tokens

theorem statementText_of_tokens (mnemonic : List Char) (single : Text.lines source.toList = [line])
    (tokenized : ((lineText line).splitOn ',').map Text.trim = mnemonic :: tokens)
    (member : row ∈ Row.all)
    (letters : row.mnemonic.toList.map Char.toLower = mnemonic.map Char.toLower) :
    StatementText source line row tokens := by
  obtain ⟨kept, uncommented, trimmed⟩ := exists_kept_lineText line
  have form : RowText (lineText line) row tokens :=
    .mk (splitOn_eq_iff.mp rfl) (map_trim_eq_iff.mp tokenized) member letters
  exact ⟨Text.lines_eq_iff.mp single, kept, _, uncommented, trimmed, form⟩

theorem StatementText.rowText (form : StatementText source line row tokens) :
    RowText (lineText line) row tokens := by
  obtain ⟨_, kept, text, uncommented, trimmed, rowText⟩ := form
  rwa [lineText_eq_iff.mpr ⟨kept, uncommented, trimmed⟩]

theorem StatementText.parseWith_eq (form : StatementText source line row tokens) (reporting : Reporting) :
    Program.parseWith reporting source =
      ((readInstr (lineText line)).map fun instr => ⟨[.stmt ⟨instr, 1, String.ofList line⟩]⟩).mapError
        fun cause => .parse ⟨1, String.ofList line, cause⟩ := by
  rw [Program.parseWith_of_lines form.single, parseLineAt_of_unlabelled form.rowText.splitLabel?_eq_none
    form.rowText.ne_nil]
  cases readInstr (lineText line) <;> rfl

theorem InstrText.not_mem_colon {instr : Instr} (form : InstrText text instr) : ':' ∉ text := by
  obtain ⟨cut, trimmed, member, letters, _, _, operands⟩ := form
  intro colon
  obtain ⟨piece, found, inside⟩ := cut.exists_piece colon (by decide)
  obtain ⟨core, listed, trims⟩ := exists_input_of_mem trimmed.flip found
  have kept : ':' ∈ core := trims.mem_of_mem inside (by decide)
  rcases List.mem_cons.mp listed with same | token
  · exact colon_not_mem_mnemonic member letters (same ▸ kept)
  · exact ((operands.solid core token).plain ':' kept).noColon rfl

theorem parseLine_eq_mapError (line : List Char) :
    parseLine (String.ofList line) =
      (readInstr? (lineText line)).mapError (⟨1, String.ofList line, ·⟩) := by
  simp only [parseLine, readInstr?, String.toList_ofList]
  split <;> rfl

theorem parse_of_unlabelled (free : '\n' ∉ line) (unlabelled : splitLabel? (lineText line) = none) :
    Program.parse (String.ofList line) =
      (parseLine (String.ofList line)).map fun instr? => ⟨lineItems 1 line none instr?⟩ := by
  rw [Program.parse_single_line free, parseLine_eq_mapError, parseLineAt, readLine_eq_map, readParts,
    unlabelled]
  cases readInstr? (lineText line) <;> rfl

/-- A line and the program that is only this line are refused for the same reason, hold nothing, or
hold the same instruction. -/
inductive ReadsAlike (line : String) : Except ParseError (Option Instr) → Except ParseError Program → Prop
  | refused (error : ParseError) : ReadsAlike line (.error error) (.error error)
  | nothing : ReadsAlike line (.ok none) (.ok ⟨[]⟩)
  | instr (instr : Instr) : ReadsAlike line (.ok (some instr)) (.ok ⟨[.stmt ⟨instr, 1, line⟩]⟩)

theorem readsAlike_of_unlabelled (free : '\n' ∉ line) (unlabelled : splitLabel? (lineText line) = none) :
    ReadsAlike (String.ofList line) (parseLine (String.ofList line))
      (Program.parse (String.ofList line)) := by
  rw [parse_of_unlabelled free unlabelled]
  rcases parseLine (String.ofList line) with error | _ | instr
  · exact .refused error
  · exact .nothing
  · exact .instr instr

theorem exists_error_of_colon {alone : String} (colon : ':' ∈ lineText alone.toList) :
    ∃ error, parseLine alone = .error error := by
  rcases read : parseLine alone with error | _ | instr
  · exact ⟨error, rfl⟩
  · -- Only an empty text holds nothing.
    simp only [parseLine] at read
    split at read
    · rename_i empty
      rw [empty] at colon
      cases colon
    · obtain ⟨_, _, absent⟩ := map_eq_ok_iff.mp (mapError_eq_ok_iff.mp read)
      cases absent
  · exact absurd colon (parseLine_eq_some_iff.mp read).not_mem_colon

theorem ReadsAlike.not_mem_label {alone name : String} {program : Program} {lineNo : Nat}
    {outcome : Except ParseError (Option Instr)} (alike : ReadsAlike alone outcome (.ok program)) :
    .label name lineNo ∉ program.items := by
  cases alike with
  | nothing => simp
  | instr => simp

/-- Reading a line alone and reading it as a program agree if it has no colon before its comment. A
line with a colon there cannot be read alone, so no label is lost. -/
theorem parseLine_agrees_with_parse {line : String} {kept : List Char} (single : '\n' ∉ line.toList)
    (uncommented : Uncommented line.toList kept) :
    (':' ∉ kept → ReadsAlike line (parseLine line) (Program.parse line)) ∧
    (':' ∈ kept → ∃ error, parseLine line = .error error) ∧
    ∀ program name lineNo, Program.parse line = .ok program → .label name lineNo ∈ program.items →
      ∃ error, parseLine line = .error error := by
  obtain ⟨other, cut, trimmed⟩ := exists_kept_lineText line.toList
  rw [← Text.beforeComment_eq_iff] at uncommented cut
  obtain rfl : other = kept := cut.symm.trans uncommented
  have alike (noColon : ':' ∉ other) : ReadsAlike line (parseLine line) (Program.parse line) := by
    have noLabel : splitLabel? (lineText line.toList) = none := by
      apply splitLabel?_of_not_mem
      exact fun colon => noColon (trimmed.mem_text colon)
    have reads := readsAlike_of_unlabelled single noLabel
    rwa [String.ofList_toList] at reads
  have fails (colon : ':' ∈ other) : ∃ error, parseLine line = .error error :=
    exists_error_of_colon (trimmed.mem_of_mem colon (by decide))
  refine ⟨alike, fails, ?_⟩
  intro program name lineNo parsed label
  apply fails
  by_contra noColon
  have reads := alike noColon
  rw [parsed] at reads
  exact reads.not_mem_label label

/-- A colon in a comment does not count, and a label in front of an instruction does. -/
theorem parseLine_agrees_with_parse_colon :
    ReadsAlike "jump , end # again:" (parseLine "jump , end # again:") (Program.parse "jump , end # again:") ∧
      ∃ error, parseLine "again: JUMP, again" = .error error := by
  have comment : Uncommented "jump , end # again:".toList "jump , end ".toList :=
    Text.beforeComment_eq_iff.mp (by decide)
  have label : Uncommented "again: JUMP, again".toList "again: JUMP, again".toList :=
    Text.beforeComment_eq_iff.mp (by decide)
  exact ⟨(parseLine_agrees_with_parse (by decide) comment).1 (by decide),
    (parseLine_agrees_with_parse (by decide) label).2.1 (by decide)⟩

theorem encodeStatements_singleton (reporting : Reporting) (stmt : Resolved) :
    encodeStatements reporting [stmt] = ((encode stmt.instr).map ([·])).mapError (.encode stmt.lineNo) := by
  rw [encodeStatements, Reporting.traverse_singleton]
  cases encode stmt.instr <;> rfl

theorem Program.toAssembly_singleton {config : Config} (stmt : Statement)
    (room : config.origin.toNat < 65535) :
    toAssembly ⟨[.stmt stmt]⟩ config = do
      let result ← (stmt.resolve .empty config.origin).mapError .resolve
      let word ← (encode result.instr).mapError (.encode result.lineNo)
      return ⟨[result], [word], []⟩ := by
  have small : config.origin.toNat + Program.size ⟨[.stmt stmt]⟩ < addressSpace := Nat.succ_lt_succ room
  rw [toAssembly, symbols_of_no_labels small rfl]
  change (substitute ⟨[.stmt stmt]⟩ config.reporting config.origin .empty).mapError _ >>= _ = _
  rw [substitute_singleton]
  cases stmt.resolve .empty config.origin with
  | error error => rfl
  | ok result =>
      change encodeStatements config.reporting [result] >>= _ = _
      rw [encodeStatements_singleton]
      change _ = (encode result.instr).mapError _ >>= _
      cases encode result.instr <;> rfl

namespace StatementText

variable {config : Config} {instr : Instr} (form : StatementText source line row tokens)
include form

theorem assemble_of_error {cause : ParseCause} (failed : readInstr (lineText line) = .error cause) :
    assemble source config = .error (.parse ⟨1, String.ofList line, cause⟩) := by
  rw [assemble_eq_bind, form.parseWith_eq, failed]
  rfl

theorem assemble_of_read (read : readInstr (lineText line) = .ok instr)
    (room : config.origin.toNat < 65535) :
    assemble source config = do
      let result ← (Statement.resolve .empty ⟨instr, 1, String.ofList line⟩ config.origin).mapError .resolve
      let word ← (encode result.instr).mapError (.encode result.lineNo)
      return ⟨[result], [word], []⟩ := by
  rw [assemble_eq_bind, form.parseWith_eq, read]
  exact Program.toAssembly_singleton _ room

end StatementText

end Asm16
