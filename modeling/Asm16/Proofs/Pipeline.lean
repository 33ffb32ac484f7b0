import Asm16.Assembly
import Asm16.Proofs.Codec
import Asm16.Proofs.Grammar
import Asm16.Proofs.Resolution

namespace Asm16

variable {source : String} {config : Config} {assembly : Assembly} {program : Program}
  {origin address : Word} {table : SymbolTable} {index : Nat} {stmt : Statement} {result : Resolved}

theorem Program.parseWith_eq_ok_iff {reporting : Reporting} :
    Program.parseWith reporting source = .ok program ↔ Program.parse source = .ok program := by
  cases reporting with
  | first => rw [Program.parseWith, mapError_eq_ok_iff]
  | all => rw [Program.parseWith, mapError_eq_ok_iff, Program.parseAll_eq_ok_iff]

/-- The statement of the source, at its address and with the number that its label stands for. -/
structure Program.Places (program : Program) (origin : Word) (index : Nat) (stmt : Statement)
    (result : Resolved) : Prop where
  address : result.address.toNat = origin.toNat + index
  lineNo : result.lineNo = stmt.lineNo
  line : result.line = stmt.line
  kept : stmt.instr.label? = none → result.instr = stmt.instr
  substituted : ∀ name, stmt.instr.label? = some name → ∃ target value,
    program.Binds origin name target ∧
    value.toInt = stmt.instr.reference target (origin.toNat + index) ∧
    result.instr = stmt.instr.withImm (.value value)

/-- Every statement of the program has its place and its word. -/
structure Assembly.Realizes (assembly : Assembly) (program : Program) (origin : Word) : Prop where
  size : origin.toNat + program.size ≤ 65535
  statements : assembly.statements.length = program.size
  words : assembly.words.length = program.size
  places : ∀ index stmt result word, program.statements[index]? = some stmt →
    assembly.statements[index]? = some result → assembly.words[index]? = some word →
    program.Places origin index stmt result ∧ decode word = .ok result.instr

theorem Instr.withImm_self {instr : Instr} {imm : Imm} (present : instr.imm? = some imm) :
    instr.withImm imm = instr := by
  cases instr <;> simp_all [Instr.imm?, Instr.withImm]

theorem Instr.immField?_inWord {instr : Instr} {field : Field} (slot : instr.immField? = some field) :
    field.InWord := by
  have member : field ∈ instr.opcode.layout.operands := List.mem_of_find?_eq_some slot
  exact instr.opcode.fields_inWord field (by simp [Layout.fields, member])

def Statement.placedAt (stmt : Statement) (address : Word) : Resolved :=
  ⟨address, stmt.instr, stmt.lineNo, stmt.line⟩

theorem Statement.resolve_of_encodable (encodable : stmt.instr.Encodable) :
    stmt.resolve table address = .ok (stmt.placedAt address) := by
  obtain ⟨noLabel, fits⟩ := encodable
  unfold Statement.resolve
  split
  · rename_i field imm slot present
    cases imm with
    | label name =>
        rw [Instr.label?_eq_some_iff.mpr present] at noLabel
        cases noLabel
    | value value =>
        have inRange : field.Fits value.toInt := fits field slot value (by rw [present]; rfl)
        simp only [Imm.number, if_pos inRange, Int32.ofInt_toInt, Instr.withImm_self present]
        rfl
  · rfl

theorem Statement.places_of_resolve (represents : table.Represents (program.labels origin))
    (distinct : program.definedNames.Nodup) (small : origin.toNat + program.size < addressSpace)
    (place : address.toNat = origin.toNat + index)
    (resolved : stmt.resolve table address = .ok result) :
    program.Places origin index stmt result := by
  unfold Statement.resolve at resolved
  split at resolved
  · rename_i field imm slot present
    split at resolved
    · cases resolved
    · rename_i number known
      have denotes := (Imm.number_eq_ok_iff represents distinct small stmt.instr).mp known
      rw [place] at denotes
      split at resolved
      · rename_i fits
        have same : (Int32.ofInt number).toInt = number :=
          (Field.ofInt_eq_iff (Instr.immField?_inWord slot) fits).mp rfl
        cases resolved
        refine ⟨place, rfl, rfl, ?_, ?_⟩
        · intro literal
          cases imm with
          | value value =>
              have kept : Int32.ofInt number = value := by rw [denotes, Int32.ofInt_toInt]
              exact Instr.withImm_self (kept ▸ present)
          | label name =>
              rw [Instr.label?_eq_some_iff.mpr present] at literal
              cases literal
        · intro name label
          have isLabel : imm = .label name :=
            Option.some.inj (present.symm.trans (Instr.label?_eq_some_iff.mp label))
          subst isLabel
          obtain ⟨target, bound, reference⟩ := denotes
          exact ⟨target, _, bound, same.trans reference, rfl⟩
      · cases resolved
  · rename_i absent
    cases resolved
    refine ⟨place, rfl, rfl, fun _ => rfl, ?_⟩
    intro name label
    have present := Instr.label?_eq_some_iff.mp label
    obtain ⟨field, slot⟩ := Instr.exists_immField present
    exact (absent field _ slot present).elim

theorem Program.exists_statement_at {reporting : Reporting} {statements : List Resolved} {words : List Word}
    (bound : program.symbols reporting origin = .ok table)
    (substituted : program.substitute reporting origin table = .ok statements)
    (encoded : encodeStatements reporting statements = .ok words)
    (found : program.statements[index]? = some stmt) :
    ∃ result word, statements[index]? = some result ∧ words[index]? = some word ∧
      program.Places origin index stmt result ∧ encode result.instr = .ok word := by
  obtain ⟨small, distinct, represents⟩ := of_symbols_eq_ok bound
  have located : (program.placed origin)[index]? = some (stmt, origin + UInt16.ofNat index) := by
    rw [getElem?_placed, found]
    rfl
  obtain ⟨result, resultAt, resolved⟩ := exists_related_at (Reporting.traverse_eq_ok_iff.mp substituted) located
  obtain ⟨word, wordAt, made⟩ :=
    exists_related_at (Reporting.traverse_eq_ok_iff.mp (mapError_eq_ok_iff.mp encoded)) resultAt
  have places := Statement.places_of_resolve represents distinct small (toNat_address small found) resolved
  exact ⟨result, word, resultAt, wordAt, places, mapError_eq_ok_iff.mp made⟩

theorem Program.length_of_substitute {reporting : Reporting} {statements : List Resolved}
    (substituted : program.substitute reporting origin table = .ok statements) :
    statements.length = program.size := by
  rw [← (Reporting.traverse_eq_ok_iff.mp substituted).length_eq, length_placed]

theorem length_of_encodeStatements {reporting : Reporting} {statements : List Resolved} {words : List Word}
    (encoded : encodeStatements reporting statements = .ok words) : words.length = statements.length :=
  (Reporting.traverse_eq_ok_iff.mp (mapError_eq_ok_iff.mp encoded)).length_eq.symm

theorem assemble_eq_ok_iff :
    assemble source config = .ok assembly ↔
      ∃ program table, Program.parseWith config.reporting source = .ok program ∧
        program.symbols config.reporting config.origin = .ok table ∧
        program.substitute config.reporting config.origin table = .ok assembly.statements ∧
        encodeStatements config.reporting assembly.statements = .ok assembly.words ∧
        assembly.symbols = table.sorted := by
  simp only [assemble, bind_eq_ok_iff, mapError_eq_ok_iff]
  constructor
  · intro ⟨program, parsed, table, bound, statements, substituted, words, encoded, returned⟩
    cases returned
    exact ⟨program, table, parsed, bound, substituted, encoded, rfl⟩
  · intro ⟨program, table, parsed, bound, substituted, encoded, symbols⟩
    exact ⟨program, parsed, table, bound, _, substituted, _, encoded, by rw [← symbols]; rfl⟩

/-- Assembling realizes the parsed program. -/
theorem assemble_realizes_program (assembled : assemble source config = .ok assembly) :
    ∃ program, (∀ reporting, Program.parseWith reporting source = .ok program) ∧
      assembly.Realizes program config.origin := by
  obtain ⟨program, table, parsed, bound, substituted, encoded, _⟩ := assemble_eq_ok_iff.mp assembled
  obtain ⟨small, _, _⟩ := Program.of_symbols_eq_ok bound
  have statements := Program.length_of_substitute substituted
  have words := (length_of_encodeStatements encoded).trans statements
  refine ⟨program, ?_, Nat.le_of_lt_succ small, statements, words, ?_⟩
  · intro reporting
    rw [Program.parseWith_eq_ok_iff] at parsed ⊢
    exact parsed
  · intro index stmt result word found resolvedAt wordAt
    obtain ⟨_, _, sameResult, sameWord, places, made⟩ :=
      Program.exists_statement_at bound substituted encoded found
    cases resolvedAt.symm.trans sameResult
    cases wordAt.symm.trans sameWord
    exact ⟨places, Instr.encode_eq_ok_iff_decode.mp made⟩

/-- Two labels on one address, a use before its definition, and a label behind all instructions. -/
theorem assemble_realizes_loop :
    ∃ assembly, assemble "start:\nagain: ADDI, $r1, end\nBNEZ, $r1, again\nJUMP, end\nend:"
        ⟨32, .all⟩ = .ok assembly ∧
      assembly.words = [0x1123, 0x81FF, 0x9023] ∧
      ∃ program, (∀ reporting, Program.parseWith reporting
          "start:\nagain: ADDI, $r1, end\nBNEZ, $r1, again\nJUMP, end\nend:" = .ok program) ∧
        assembly.Realizes program 32 := by
  have runs : (assemble "start:\nagain: ADDI, $r1, end\nBNEZ, $r1, again\nJUMP, end\nend:"
      ⟨32, .all⟩).toOption.map (·.words) = some [0x1123, 0x81FF, 0x9023] := by decide +kernel
  obtain ⟨assembly, assembled, words⟩ := Option.map_eq_some_iff.mp runs
  rw [toOption_eq_some_iff] at assembled
  exact ⟨assembly, assembled, words, assemble_realizes_program assembled⟩

end Asm16
