import Asm16.Proofs.ReportingModes
import Asm16.Proofs.ResolvedWords

namespace Asm16

/-- The label whose address the instruction is to hold. Branches hold distances. -/
def Instr.absoluteLabel? : Instr → Option String
  | .immediate _ _ imm => imm.label?
  | .jump target => target.label?
  | .jal target => target.label?
  | .alu .. | .mem .. | .branch .. | .sys _ => none

structure Symbol.Moves (distance : Int) (symbol moved : Symbol) : Prop where
  name : moved.name = symbol.name
  lineNo : moved.lineNo = symbol.lineNo
  address : (moved.address.toNat : Int) = symbol.address.toNat + distance

structure Resolved.Moves (distance : Int) (result moved : Resolved) : Prop where
  address : (moved.address.toNat : Int) = result.address.toNat + distance
  lineNo : moved.lineNo = result.lineNo
  line : moved.line = result.line

/-- What a move makes of the word of an instruction. -/
inductive Instr.WordMoves (distance : Int) (instr : Instr) : Word → Word → Prop
  | kept {word : Word} (independent : instr.absoluteLabel? = none) : WordMoves distance instr word word
  | moved {word other : Word} {name : String} {first : Instr} {value moved : Int32}
      (label : instr.absoluteLabel? = some name) (decoded : decode word = .ok first)
      (present : first.imm? = some (.value value)) (shifted : moved.toInt = value.toInt + distance)
      (again : decode other = .ok (first.withImm (.value moved))) : WordMoves distance instr word other

/-- Two assemblies of a program at origins that are a distance apart. -/
structure Program.Moves (program : Program) (distance : Int) (assembly moved : Assembly) : Prop where
  statements : assembly.statements.length = program.size ∧ moved.statements.length = program.size
  words : assembly.words.length = program.size ∧ moved.words.length = program.size
  places : ∀ (index : Nat) (stmt : Statement), program.statements[index]? = some stmt →
    ∃ (result other : Resolved) (word image : Word),
      assembly.statements[index]? = some result ∧ moved.statements[index]? = some other ∧
      assembly.words[index]? = some word ∧ moved.words[index]? = some image ∧
      result.Moves distance other ∧ stmt.instr.WordMoves distance word image
  symbols : List.Forall₂ (Symbol.Moves distance) assembly.symbols moved.symbols

theorem Instr.absoluteLabel?_of_label?_none {instr : Instr} (literal : instr.label? = none) :
    instr.absoluteLabel? = none := by
  cases instr with
  | immediate => exact literal
  | jump => exact literal
  | jal => exact literal
  | _ => rfl

theorem Instr.reference_cases {instr : Instr} {name : String} (label : instr.label? = some name) :
    (instr.absoluteLabel? = some name ∧ ∀ address here, instr.reference address here = address) ∨
    (instr.absoluteLabel? = none ∧ ∀ address here, instr.reference address here = address - here) := by
  cases instr with
  | branch => exact .inr ⟨rfl, fun _ _ => rfl⟩
  | alu => cases label
  | mem => cases label
  | sys => cases label
  | immediate => exact .inl ⟨label, fun _ _ => rfl⟩
  | jump => exact .inl ⟨label, fun _ _ => rfl⟩
  | jal => exact .inl ⟨label, fun _ _ => rfl⟩

section

variable {program : Program} {origin other : Word} {index : Nat} {stmt : Statement}

theorem Program.Binds.move {name : String} {address : Nat} (bound : program.Binds origin name address)
    (other : Word) :
    ∃ moved : Nat, program.Binds other name moved ∧ (moved : Int) = address + (other.toNat - origin.toNat) := by
  obtain ⟨before, lineNo, after, splits, fresh, last, rfl⟩ := bound
  exact ⟨other.toNat + before.size, ⟨before, lineNo, after, splits, fresh, last, rfl⟩, by omega⟩

theorem Program.Binds.distance {name : String} {address moved : Nat}
    (bound : program.Binds origin name address) (again : program.Binds other name moved) :
    (moved : Int) = address + (other.toNat - origin.toNat) := by
  obtain ⟨place, reached, apart⟩ := bound.move other
  rw [again.unique reached, apart]

variable {result moved : Resolved} (places : program.Places origin index stmt result)
  (again : program.Places other index stmt moved)
include places again

theorem Program.Places.moves : result.Moves (other.toNat - origin.toNat) moved := by
  refine ⟨?_, by rw [again.lineNo, places.lineNo], by rw [again.line, places.line]⟩
  rw [again.address, places.address]
  omega

theorem Program.Places.instr_moves :
    (stmt.instr.absoluteLabel? = none ∧ moved.instr = result.instr) ∨
    ∃ name value shifted, stmt.instr.absoluteLabel? = some name ∧
      result.instr.imm? = some (.value value) ∧ moved.instr = result.instr.withImm (.value shifted) ∧
      shifted.toInt = value.toInt + (other.toNat - origin.toNat) := by
  cases label : stmt.instr.label? with
  | none =>
      refine .inl ⟨Instr.absoluteLabel?_of_label?_none label, ?_⟩
      rw [again.kept label, places.kept label]
  | some name =>
      obtain ⟨target, value, bound, number, instr⟩ := places.substituted name label
      obtain ⟨movedTarget, shifted, movedBound, movedNumber, movedInstr⟩ := again.substituted name label
      have apart := bound.distance movedBound
      rcases Instr.reference_cases label with ⟨absolute, held⟩ | ⟨independent, counted⟩
      · rw [held] at number movedNumber
        refine .inr ⟨name, value, shifted, absolute, ?_, ?_, by omega⟩
        · rw [instr, Instr.imm?_withImm (Instr.label?_eq_some_iff.mp label)]
        · rw [movedInstr, instr, Instr.withImm_withImm]
      · -- target and instruction move together
        rw [counted] at number movedNumber
        have same : shifted = value := Int32.toInt_inj.mp (by omega)
        exact .inl ⟨independent, by rw [movedInstr, instr, same]⟩

theorem Program.Places.wordMoves {word image : Word} (encoded : encode result.instr = .ok word)
    (movedEncoded : encode moved.instr = .ok image) :
    stmt.instr.WordMoves (other.toNat - origin.toNat) word image := by
  rcases places.instr_moves again with
    ⟨independent, same⟩ | ⟨name, value, shifted, label, present, instr, apart⟩
  · rw [same, encoded] at movedEncoded
    cases movedEncoded
    exact .kept independent
  · rw [instr] at movedEncoded
    exact .moved label (Instr.encode_eq_ok_iff_decode.mp encoded) present apart
      (Instr.encode_eq_ok_iff_decode.mp movedEncoded)

end

def Symbol.shift (distance : Word) (symbol : Symbol) : Symbol :=
  ⟨symbol.name, symbol.address + distance, symbol.lineNo⟩

theorem symbolsFrom_shift (address distance : Word) (items : List Item) :
    symbolsFrom (address + distance) items = (symbolsFrom address items).map (Symbol.shift distance) := by
  induction items generalizing address with
  | nil => rfl
  | cons item rest ih =>
      cases item with
      | label name lineNo =>
          rw [symbolsFrom, symbolsFrom, List.map_cons, ih]
          rfl
      | stmt stmt =>
          have next : address + distance + 1 = address + 1 + distance := by
            rw [UInt16.add_assoc, UInt16.add_comm distance, UInt16.add_assoc]
          rw [symbolsFrom, symbolsFrom, next, ih]

namespace Program

variable {program : Program} {origin other : Word} {table moved : SymbolTable}

theorem labels_shift (program : Program) (origin other : Word) :
    program.labels other = (program.labels origin).map (Symbol.shift (other - origin)) := by
  have reached : origin + (other - origin) = other := by rw [UInt16.add_comm, UInt16.sub_add_cancel]
  rw [labels_eq_symbolsFrom, labels_eq_symbolsFrom, ← symbolsFrom_shift, reached]

theorem lookup?_shift (represents : table.Represents (program.labels origin))
    (others : moved.Represents (program.labels other)) (name : String) :
    moved.lookup? name = (table.lookup? name).map (Symbol.shift (other - origin)) := by
  rw [others name, labels_shift program origin other, List.find?_map, represents name]
  rfl

/-- Within memory a shift by the distance of the origins does not wrap. -/
theorem moves_shift {symbol : Symbol} (represents : table.Represents (program.labels origin))
    (small : origin.toNat + program.size < addressSpace)
    (movedSmall : other.toNat + program.size < addressSpace) (member : symbol ∈ table.sorted) :
    symbol.Moves (other.toNat - origin.toNat) (symbol.shift (other - origin)) := by
  have found := represents.mem_sorted_iff.mp member
  rw [represents symbol.name] at found
  obtain ⟨before, lineNo, after, splits, _, described⟩ := find?_labels_eq_some_iff.mp found
  have inside := splits.size
  have place : symbol.address = origin + UInt16.ofNat before.size := by rw [described]
  have movedPlace : symbol.address + (other - origin) = other + UInt16.ofNat before.size := by
    rw [place]
    grind
  refine ⟨rfl, rfl, ?_⟩
  rw [Symbol.shift, movedPlace, place, toNat_origin_add (by omega), toNat_origin_add (by omega)]
  omega

theorem sorted_moves (represents : table.Represents (program.labels origin))
    (others : moved.Represents (program.labels other))
    (small : origin.toNat + program.size < addressSpace)
    (movedSmall : other.toNat + program.size < addressSpace) :
    List.Forall₂ (Symbol.Moves (other.toNat - origin.toNat)) table.sorted moved.sorted := by
  have moves : ∀ symbol ∈ table.sorted,
      symbol.Moves (other.toNat - origin.toNat) (symbol.shift (other - origin)) :=
    fun _ member => moves_shift represents small movedSmall member
  have same : moved.sorted = table.sorted.map (Symbol.shift (other - origin)) := by
    refine represents.sorted_eq_map others (lookup?_shift represents others) (fun _ => rfl) ?_
    -- all addresses move by one distance, so their order stays
    intro left leftMember right rightMember less
    have leftMoves := (moves left leftMember).address
    have rightMoves := (moves right rightMember).address
    rw [Symbol.order_eq_lt_iff, UInt16.lt_iff_toNat_lt, ← UInt16.toNat_inj] at less ⊢
    rcases less with less | ⟨equal, names⟩
    · exact .inl (by omega)
    · exact .inr ⟨by omega, names⟩
  rw [same, List.forall₂_map_right_iff, List.forall₂_same]
  exact moves

end Program

section

variable {source : String} {config other : Config} {assembly moved : Assembly} {program : Program}

theorem assemble_eq_ok_iff_of_parse (parsed : Program.parse source = .ok program) :
    assemble source config = .ok assembly ↔
      ∃ table, program.symbols config.reporting config.origin = .ok table ∧
        program.substitute config.reporting config.origin table = .ok assembly.statements ∧
        encodeStatements config.reporting assembly.statements = .ok assembly.words ∧
        assembly.symbols = table.sorted := by
  simp only [assemble_eq_ok_iff, Program.parseWith_eq_ok_iff, parsed, Except.ok.injEq, exists_and_left,
    exists_eq_left']

theorem Program.moves_of_assemble (parsed : Program.parse source = .ok program)
    (assembled : assemble source config = .ok assembly) (again : assemble source other = .ok moved) :
    program.Moves (other.origin.toNat - config.origin.toNat) assembly moved := by
  obtain ⟨table, bound, substituted, encoded, symbols⟩ := (assemble_eq_ok_iff_of_parse parsed).mp assembled
  obtain ⟨movedTable, movedBound, movedSubstituted, movedEncoded, movedSymbols⟩ :=
    (assemble_eq_ok_iff_of_parse parsed).mp again
  obtain ⟨small, _, represents⟩ := of_symbols_eq_ok bound
  obtain ⟨movedSmall, _, others⟩ := of_symbols_eq_ok movedBound
  have length := length_of_substitute substituted
  have movedLength := length_of_substitute movedSubstituted
  refine ⟨⟨length, movedLength⟩, ⟨?_, ?_⟩, ?_, ?_⟩
  · rw [length_of_encodeStatements encoded, length]
  · rw [length_of_encodeStatements movedEncoded, movedLength]
  · intro index stmt found
    obtain ⟨result, word, resultAt, wordAt, places, made⟩ := exists_statement_at bound substituted encoded found
    obtain ⟨image, code, imageAt, codeAt, movedPlaces, movedMade⟩ :=
      exists_statement_at movedBound movedSubstituted movedEncoded found
    exact ⟨result, image, word, code, resultAt, imageAt, wordAt, codeAt, places.moves movedPlaces,
      places.wordMoves movedPlaces made movedMade⟩
  · rw [symbols, movedSymbols]
    exact sorted_moves represents others small movedSmall

theorem Program.Moves.words_eq {distance : Int} (moves : program.Moves distance assembly moved)
    (independent : ∀ stmt ∈ program.statements, stmt.instr.absoluteLabel? = none) :
    moved.words = assembly.words := by
  refine List.ext_getElem? fun index => ?_
  cases found : program.statements[index]? with
  | none =>
      have beyond : program.size ≤ index := List.getElem?_eq_none_iff.mp found
      rw [List.getElem?_eq_none (moves.words.2.symm ▸ beyond), List.getElem?_eq_none (moves.words.1.symm ▸ beyond)]
  | some stmt =>
      obtain ⟨_, _, word, image, _, _, wordAt, imageAt, _, moved⟩ := moves.places index stmt found
      rw [wordAt, imageAt]
      cases moved with
      | kept => rfl
      | moved label =>
          rw [independent stmt (List.mem_of_getElem? found)] at label
          cases label

theorem Program.WellFormed.move {origin place : Word} (wellFormed : program.WellFormed origin)
    (independent : ∀ stmt ∈ program.statements, stmt.instr.absoluteLabel? = none)
    (size : place.toNat + program.size ≤ 65535) : program.WellFormed place := by
  refine ⟨size, wellFormed.distinct, wellFormed.defined, ?_⟩
  intro index stmt found field slot imm present
  obtain ⟨number, denotes, fits⟩ := wellFormed.inRange index stmt found field slot imm present
  refine ⟨number, ?_, fits⟩
  cases imm with
  | value value => exact denotes
  | label name =>
      obtain ⟨address, bound, reference⟩ := denotes
      rcases Instr.reference_cases (Instr.label?_eq_some_iff.mpr present) with ⟨absolute, _⟩ | ⟨_, counted⟩
      · rw [independent stmt (List.mem_of_getElem? found)] at absolute
        cases absolute
      · obtain ⟨moved, reached, apart⟩ := bound.move place
        refine ⟨moved, reached, ?_⟩
        rw [reference, counted, counted]
        omega

theorem assemble_first_eq_ok_iff {origin : Word} {reporting : Reporting} :
    assemble source ⟨origin, reporting⟩ = .ok assembly ↔ assemble source ⟨origin, .first⟩ = .ok assembly := by
  cases reporting with
  | first => rfl
  | all =>
      have agree := assemble_agree source origin
      generalize assemble source ⟨origin, .first⟩ = first at agree ⊢
      generalize assemble source ⟨origin, .all⟩ = all at agree ⊢
      cases agree <;> simp

theorem exists_assemble_iff_wellFormed (parsed : Program.parse source = .ok program) :
    (∃ assembly, assemble source config = .ok assembly) ↔ program.WellFormed config.origin := by
  simp only [@assemble_first_eq_ok_iff source _ config.origin config.reporting,
    assemble_eq_ok_iff_of_parse parsed, ← Program.exists_resolve_first_iff]
  refine ⟨?_, ?_⟩
  · intro ⟨assembly, table, bound, substituted, _⟩
    exact ⟨assembly.statements, bind_eq_ok_iff.mpr ⟨table, bound, substituted⟩⟩
  · intro ⟨statements, resolved⟩
    obtain ⟨table, bound, substituted⟩ := bind_eq_ok_iff.mp resolved
    obtain ⟨words, encoded⟩ := exists_encodeStatements (Program.encodable_of_substitute substituted)
    exact ⟨⟨statements, words, table.sorted⟩, table, bound, substituted, encoded, rfl⟩

/-- A source that assembles at two origins moves by their distance: addresses and the numbers that
stand for addresses, and nothing else. A source without such numbers assembles wherever it fits. -/
theorem assemble_moves_with_origin {origin : Word} {reporting : Reporting}
    (assembled : assemble source ⟨origin, reporting⟩ = .ok assembly) :
    ∃ program, (∀ mode, Program.parseWith mode source = .ok program) ∧
      (∀ place mode moved, assemble source ⟨place, mode⟩ = .ok moved →
        program.Moves (place.toNat - origin.toNat) assembly moved) ∧
      ((∀ stmt ∈ program.statements, stmt.instr.absoluteLabel? = none) →
        ∀ place mode, place.toNat + program.size ≤ 65535 →
          ∃ moved, assemble source ⟨place, mode⟩ = .ok moved ∧ moved.words = assembly.words) := by
  obtain ⟨program, _, accepted, _⟩ := assemble_eq_ok_iff.mp assembled
  have parsed := Program.parseWith_eq_ok_iff.mp accepted
  refine ⟨program, fun _ => Program.parseWith_eq_ok_iff.mpr parsed, ?_, ?_⟩
  · intro place mode moved again
    exact Program.moves_of_assemble parsed assembled again
  · intro independent place mode size
    have wellFormed := (exists_assemble_iff_wellFormed parsed).mp ⟨assembly, assembled⟩
    obtain ⟨moved, again⟩ := (@exists_assemble_iff_wellFormed source ⟨place, mode⟩ program parsed).mpr
      (wellFormed.move independent size)
    exact ⟨moved, again, (Program.moves_of_assemble parsed assembled again).words_eq independent⟩

/-- A loop that holds its own address, and a loop that only counts, up to the end of memory. -/
theorem assemble_moves_loop :
    (∃ program assembly moved,
      assemble "loop: ADDI, $r1, loop\nBNEZ, $r1, loop" ⟨3, .first⟩ = .ok assembly ∧
      assemble "loop: ADDI, $r1, loop\nBNEZ, $r1, loop" ⟨64, .all⟩ = .ok moved ∧
      assembly.words = [0x1103, 0x81FF] ∧ moved.words = [0x1140, 0x81FF] ∧
      Program.Moves program 61 assembly moved) ∧
    ∃ moved, assemble "loop: NOP\nBNEZ, $r1, loop" ⟨65533, .all⟩ = .ok moved ∧
      moved.words = [0xF000, 0x81FF] := by
  have first : (assemble "loop: ADDI, $r1, loop\nBNEZ, $r1, loop" ⟨3, .first⟩).toOption.map (·.words) =
      some [0x1103, 0x81FF] := by decide +kernel
  have second : (assemble "loop: ADDI, $r1, loop\nBNEZ, $r1, loop" ⟨64, .all⟩).toOption.map (·.words) =
      some [0x1140, 0x81FF] := by decide +kernel
  have counting : (assemble "loop: NOP\nBNEZ, $r1, loop" ⟨0, .first⟩).toOption.map (·.words) =
      some [0xF000, 0x81FF] := by decide +kernel
  have relative : (Program.parseWith .first "loop: NOP\nBNEZ, $r1, loop").toOption.map
      (fun program => (program.statements.map (·.instr.absoluteLabel?), program.size)) =
      some ([none, none], 2) := by decide +kernel
  obtain ⟨assembly, assembled, words⟩ := Option.map_eq_some_iff.mp first
  obtain ⟨moved, again, movedWords⟩ := Option.map_eq_some_iff.mp second
  obtain ⟨bare, bareAssembled, bareWords⟩ := Option.map_eq_some_iff.mp counting
  rw [toOption_eq_some_iff] at assembled again bareAssembled
  obtain ⟨program, _, moves, _⟩ := assemble_moves_with_origin assembled
  obtain ⟨loop, parsed, _, anywhere⟩ := assemble_moves_with_origin bareAssembled
  rw [parsed .first] at relative
  obtain ⟨labels, size⟩ := Prod.mk.inj (Option.some.inj relative)
  have independent : ∀ stmt ∈ loop.statements, stmt.instr.absoluteLabel? = none := by
    intro stmt member
    have listed := List.mem_map_of_mem (f := fun stmt : Statement => stmt.instr.absoluteLabel?) member
    simpa [labels] using listed
  obtain ⟨far, farAssembled, farWords⟩ := anywhere independent 65533 .all (by rw [size]; decide)
  exact ⟨⟨program, assembly, moved, assembled, again, words, movedWords, moves 64 .all moved again⟩,
    far, farAssembled, farWords.trans bareWords⟩

end

end Asm16
