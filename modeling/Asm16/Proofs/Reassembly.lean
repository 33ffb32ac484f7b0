import Asm16.Proofs.Pipeline
import Asm16.Proofs.PrintedForm

namespace Asm16

/-- The written forms of words, line by line. -/
def listing (words : List Word) : String :=
  "\n".intercalate (words.map Word.text)

/-- The words are instructions, and the address behind them still has sixteen bits. -/
structure IsCode (words : List Word) (origin : Word) : Prop where
  decodes : ∀ word ∈ words, ∃ instr, decode word = .ok instr
  size : origin.toNat + words.length ≤ 65535

variable {word : Word} {instr : Instr} {words : List Word} {c : Char}

theorem digitChar_alphanumeric :
    ∀ digit < 16, (Nat.digitChar digit).isAlpha ∨ (Nat.digitChar digit).isDigit := by
  decide

theorem exists_digit_of_mem_toDigits (number : Nat) :
    ∀ c ∈ Nat.toDigits 16 number, ∃ digit < 16, c = Nat.digitChar digit := by
  induction number using Nat.strong_induction_on with
  | _ number ih =>
      intro c member
      rw [Nat.toDigits_eq_if (by decide)] at member
      split at member
      · rename_i small
        exact ⟨number, small, List.mem_singleton.mp member⟩
      · rcases List.mem_append.mp member with earlier | last
        · exact ih (number / 16) (by omega) c earlier
        · exact ⟨number % 16, Nat.mod_lt _ (by decide), List.mem_singleton.mp last⟩

theorem exists_digit_of_mem_hex {width number : Nat} (member : c ∈ Numeral.hex width number) :
    ∃ digit < 16, c = Nat.digitChar digit := by
  rcases List.mem_append.mp member with padding | digit
  · exact ⟨0, by decide, List.eq_of_mem_replicate padding⟩
  · exact exists_digit_of_mem_toDigits number c digit

theorem name_of_mem_hex {width number : Nat} (member : c ∈ Numeral.hex width number) :
    c.isAlpha ∨ c.isDigit ∨ c = '_' ∨ c = '.' := by
  obtain ⟨digit, small, rfl⟩ := exists_digit_of_mem_hex member
  exact (digitChar_alphanumeric digit small).imp_right .inl

theorem plain_hex {width number : Nat} (member : c ∈ Numeral.hex width number) : Plain c :=
  plain_of_name (name_of_mem_hex member)

theorem hex_ne_nil {width number : Nat} : Numeral.hex width number ≠ [] :=
  List.append_ne_nil_of_right_ne_nil _ Nat.toDigits_ne_nil

theorem solid_of_decode (decoded : decode word = .ok instr) :
    ∀ token ∈ instr.mnemonic.toList :: instr.operands.map Operand.chars, Solid token := by
  apply Instr.solid_chars
  rw [(Instr.encodable_of_decode decoded).1]
  simp

theorem Word.toList_text_of_decode (decoded : decode word = .ok instr) :
    (Word.text word).toList = instr.chars := by
  simp only [Word.text, decoded, Instr.text, String.toList_ofList]

theorem Word.toList_text_of_error {error : DecodeError} (failed : decode word = .error error) :
    (Word.text word).toList = ".word 0x".toList ++ Numeral.hex 4 word.toNat := by
  simp [Word.text, failed, Numeral.wordHex, toString]

theorem Word.mem_text (member : c ∈ (Word.text word).toList) : Plain c ∨ c = ',' ∨ c = ' ' := by
  cases decoded : decode word with
  | ok instr =>
      rw [Word.toList_text_of_decode decoded] at member
      exact mem_intercalate_solid (solid_of_decode decoded) member
  | error error =>
      have mark : ".word 0x".toList.all fun c => Plain c ∨ c = ',' ∨ c = ' ' := by decide
      rw [Word.toList_text_of_error decoded] at member
      rcases List.mem_append.mp member with inMark | digit
      · simpa using List.all_eq_true.mp mark c inMark
      · exact .inl (plain_hex digit)

theorem Word.not_mem_text (mark : ¬ Plain c) (noComma : c ≠ ',') (noBlank : c ≠ ' ') :
    c ∉ (Word.text word).toList := by
  intro member
  rcases Word.mem_text member with plain | same | same
  · exact mark plain
  · exact noComma same
  · exact noBlank same

theorem Word.text_ne_nil (word : Word) : (Word.text word).toList ≠ [] := by
  cases decoded : decode word with
  | ok instr =>
      rw [Word.toList_text_of_decode decoded]
      exact intercalate_solid_ne_nil (solid_of_decode decoded)
  | error error => simp [Word.toList_text_of_error decoded]

theorem splitLabel?_text (word : Word) : splitLabel? (Word.text word).toList = none :=
  splitLabel?_of_not_mem (Word.not_mem_text (by decide) (by decide) (by decide))

/-- A text without a comma is no instruction if there is a blank inside. -/
theorem not_instrText_of_blank {text : List Char} (noComma : ',' ∉ text) (trimmed : Trimmed text text)
    (member : c ∈ text) (blank : Text.isBlank c) : ¬ InstrText text instr := by
  intro ⟨cut, tokens, listed, letters, _, _, _⟩
  rw [← splitOn_eq_iff, List.splitOn_eq_singleton noComma] at cut
  subst cut
  cases tokens with
  | cons mnemonic _ =>
      have same := trimmed.text_trim.symm.trans mnemonic.text_trim
      have noBlank := List.any_eq_false.mp (mnemonic_not_blank listed letters)
      exact noBlank c (same ▸ member) blank

theorem trimmed_of_error {error : DecodeError} (failed : decode word = .error error) :
    Trimmed (Word.text word).toList (Word.text word).toList where
  around := ⟨[], [], by simp⟩
  first c member := by
    rw [Word.toList_text_of_error failed] at member
    cases member
    decide
  last c member := by
    rw [Word.toList_text_of_error failed, List.getLast?_append_of_ne_nil _ hex_ne_nil] at member
    exact (plain_hex (List.mem_of_mem_getLast? member)).noBlank

theorem lineText_text (word : Word) : lineText (Word.text word).toList = (Word.text word).toList := by
  cases decoded : decode word with
  | ok instr =>
      rw [Word.toList_text_of_decode decoded]
      exact lineText_of_solid (solid_of_decode decoded)
  | error error =>
      refine lineText_eq_iff.mpr ⟨_, .plain ?_, trimmed_of_error decoded⟩
      exact Word.not_mem_text (by decide) (by decide) (by decide)

theorem instrText_text_iff : InstrText (Word.text word).toList instr ↔ decode word = .ok instr := by
  cases decoded : decode word with
  | ok other =>
      have form : InstrText other.chars other :=
        Instr.instrText_chars (by rw [(Instr.encodable_of_decode decoded).1]; simp)
      rw [Word.toList_text_of_decode decoded, ← readInstr_eq_ok_iff, readInstr_eq_ok_iff.mpr form,
        Except.ok.injEq, Except.ok.injEq]
  | error error =>
      have noComma : ',' ∉ (Word.text word).toList := by
        rw [Word.toList_text_of_error decoded]
        intro comma
        rcases List.mem_append.mp comma with mark | digit
        · revert mark
          decide
        · exact (plain_hex digit).noComma rfl
      have blank : ' ' ∈ (Word.text word).toList := by simp [Word.toList_text_of_error decoded]
      refine iff_of_false ?_ (by simp)
      exact not_instrText_of_blank noComma (trimmed_of_error decoded) blank (by decide)

theorem instrForm_iff_of_ne_nil {text : List Char} {instr? : Option Instr} (nonempty : text ≠ []) :
    InstrForm text instr? ↔ ∃ instr, instr? = some instr ∧ InstrText text instr := by
  refine ⟨fun form => ?_, fun ⟨instr, same, form⟩ => same ▸ .some form⟩
  cases form with
  | none => exact absurd rfl nonempty
  | some form => exact ⟨_, rfl, form⟩

theorem lineForm_text_iff {label? : Option String} {instr? : Option Instr} :
    LineForm (Word.text word).toList label? instr? ↔
      label? = none ∧ ∃ instr, instr? = some instr ∧ decode word = .ok instr := by
  rw [lineForm_iff, lineText_text, textForm_iff_of_unlabelled (splitLabel?_text word),
    instrForm_iff_of_ne_nil (Word.text_ne_nil word)]
  simp only [instrText_text_iff]

theorem lines_listing (words : List Word) :
    Text.lines (listing words).toList = words.map fun word => (Word.text word).toList := by
  have cut : Lines (['\n'].intercalate (words.map fun word => (Word.text word).toList))
      (words.map fun word => (Word.text word).toList) := by
    apply lines_intercalate
    · simpa using fun word _ => Word.text_ne_nil word
    · simpa using fun word _ => Word.not_mem_text (by decide) (by decide) (by decide)
    · simp only [List.forall_mem_map]
      intro word _ last
      exact Word.not_mem_text (by decide) (by decide) (by decide) (List.mem_of_getLast? last)
  rw [listing, String.toList_intercalate, List.map_map]
  exact cut.text_lines

/-- The program has the instruction of each word, in order, and no label. -/
structure Program.Lists (program : Program) (words : List Word) : Prop where
  encodes : List.Forall₂ (fun stmt word => encode stmt.instr = .ok word) program.statements words
  unlabelled : program.definedNames = []

namespace Program

variable {program : Program} {origin : Word} {reporting : Reporting} {source : String}

theorem lists_flatten {parts : List (List Item)} {index : Nat}
    (read : List.Forall₂ (fun line items => parseLineAt line = .ok items)
      ((words.map fun word => (Word.text word).toList).zipIdx index) parts) :
    Lists ⟨parts.flatten⟩ words := by
  induction words generalizing parts index with
  | nil =>
      cases read
      exact ⟨.nil, rfl⟩
  | cons word words ih =>
      rw [List.map_cons, List.zipIdx_cons] at read
      cases read with
      | cons first later =>
          obtain ⟨label?, instr?, form, same⟩ := parseLineAt_eq_ok_iff.mp first
          obtain ⟨rfl, instr, rfl, decoded⟩ := lineForm_text_iff.mp form
          subst same
          exact ⟨.cons (Instr.encode_eq_ok_iff_decode.mpr decoded) (ih later).encodes, (ih later).unlabelled⟩

theorem lists_of_parse (parsed : parse (listing words) = .ok program) : program.Lists words := by
  obtain ⟨parts, read, rfl⟩ := parse_eq_ok_iff.mp parsed
  rw [sourceLines, lines_listing] at read
  exact lists_flatten read

theorem exists_parse_listing_iff :
    (∃ program, parse (listing words) = .ok program) ↔
      ∀ word ∈ words, ∃ instr, decode word = .ok instr := by
  simp [exists_parse_iff, lines_listing, lineForm_text_iff]

namespace Lists

variable (lists : program.Lists words)
include lists

theorem size_eq : program.size = words.length :=
  lists.encodes.length_eq

theorem substitute_eq (table : SymbolTable) :
    program.substitute reporting origin table =
      .ok ((program.placed origin).map fun pair => pair.1.placedAt pair.2) := by
  apply Reporting.traverse_eq_ok_map
  intro pair member
  obtain ⟨⟨stmt, index⟩, inside, rfl⟩ := List.mem_map.mp member
  obtain ⟨word, encoded⟩ := exists_ok_of_mem lists.encodes (List.fst_mem_of_mem_zipIdx inside)
  exact Statement.resolve_of_encodable (Instr.exists_encode_iff_encodable.mp ⟨word, encoded⟩)

theorem encodeStatements_eq :
    encodeStatements reporting ((program.placed origin).map fun pair => pair.1.placedAt pair.2) = .ok words := by
  have encodes := lists.encodes
  rw [← List.zipIdx_map_fst 0 program.statements, List.forall₂_map_left_iff] at encodes
  simpa only [encodeStatements, mapError_eq_ok_iff, Reporting.traverse_eq_ok_iff, placed,
    List.forall₂_map_left_iff, Statement.placedAt] using encodes

theorem assemble_words {config : Config} (parsed : parse source = .ok program)
    (small : config.origin.toNat + program.size < addressSpace) :
    (assemble source config).map Assembly.words = .ok words := by
  rw [map_eq_ok_iff]
  exact ⟨⟨_, words, _⟩, assemble_eq_ok_iff.mpr ⟨program, .empty, parseWith_eq_ok_iff.mpr parsed,
    symbols_of_no_labels small lists.unlabelled, lists.substitute_eq .empty, lists.encodeStatements_eq, rfl⟩, rfl⟩

end Lists

end Program

section

variable {config : Config} {assembly : Assembly} {source : String}

theorem isCode_of_assemble (assembled : assemble source config = .ok assembly) :
    IsCode assembly.words config.origin := by
  obtain ⟨program, table, _, bound, substituted, encoded, _⟩ := assemble_eq_ok_iff.mp assembled
  obtain ⟨small, _, _⟩ := Program.of_symbols_eq_ok bound
  have encodes := Reporting.traverse_eq_ok_iff.mp (mapError_eq_ok_iff.mp encoded)
  refine ⟨fun word member => ?_, ?_⟩
  · obtain ⟨stmt, _, made⟩ := exists_input_of_mem encodes member
    exact ⟨stmt.instr, Instr.encode_eq_ok_iff_decode.mp (mapError_eq_ok_iff.mp made)⟩
  · rw [length_of_encodeStatements encoded, Program.length_of_substitute substituted]
    exact Nat.le_of_lt_succ small

theorem isCode_of_assemble_listing (assembled : assemble (listing words) config = .ok assembly) :
    IsCode words config.origin := by
  obtain ⟨program, table, parsed, bound, _⟩ := assemble_eq_ok_iff.mp assembled
  obtain ⟨small, _, _⟩ := Program.of_symbols_eq_ok bound
  rw [Program.parseWith_eq_ok_iff] at parsed
  rw [(Program.lists_of_parse parsed).size_eq] at small
  exact ⟨Program.exists_parse_listing_iff.mp ⟨program, parsed⟩, Nat.le_of_lt_succ small⟩

theorem IsCode.assemble_listing (code : IsCode words config.origin) :
    (assemble (listing words) config).map Assembly.words = .ok words := by
  obtain ⟨program, parsed⟩ := Program.exists_parse_listing_iff.mpr code.decodes
  have lists := Program.lists_of_parse parsed
  exact lists.assemble_words parsed (by rw [lists.size_eq]; exact Nat.lt_succ_of_le code.size)

/-- A listing assembles to the words it lists exactly if they are code, and to nothing else. The
words of an assembly always are. -/
theorem assemble_listing_iff_isCode (words : List Word) (config : Config) :
    ((assemble (listing words) config).map Assembly.words = .ok words ↔ IsCode words config.origin) ∧
      (¬ IsCode words config.origin → ∃ error, assemble (listing words) config = .error error) ∧
      ∀ source assembly, assemble source config = .ok assembly →
        (assemble (listing assembly.words) config).map Assembly.words = .ok assembly.words := by
  refine ⟨⟨fun assembled => ?_, IsCode.assemble_listing⟩, fun bad => ?_, fun source assembly assembled => ?_⟩
  · obtain ⟨assembly, success, _⟩ := map_eq_ok_iff.mp assembled
    exact isCode_of_assemble_listing success
  · cases outcome : assemble (listing words) config with
    | error error => exact ⟨error, rfl⟩
    | ok assembly => exact absurd (isCode_of_assemble_listing outcome) bad
  · exact (isCode_of_assemble assembled).assemble_listing

end

end Asm16
