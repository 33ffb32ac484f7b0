import Mathlib.Data.List.Induction
import Asm16.Proofs.ControlTransfer
import Asm16.Proofs.Pipeline
import Asm16.Proofs.ReportingModes

/-!
# Names for addresses and addresses for names

A listing puts names in place of the addresses that operands denote, and resolving puts the
addresses back. The two agree on which address that is, except where a branch leaves the address
space at one end: the listing then counts on from the other end, but no offset reaches that far.
-/

namespace Asm16

variable {instr : Instr} {labels : Labels} {table : SymbolTable} {name : String} {target : Nat}
  {address : Word} {stmt : Statement} {symbol : Symbol}

/-- The instruction is a branch whose offset leads out of the address space. -/
def Instr.Wraps (instr : Instr) (address : Nat) : Prop :=
  ∃ cond rs offset, instr = .branch cond rs (.value offset) ∧
    ¬ (0 ≤ address + offset.toInt ∧ address + offset.toInt ≤ 65535)

/-- Such a branch, counted on from the other end, comes to an address with a name. -/
structure Instr.WrapsTo (instr : Instr) (labels : Labels) (address target : Nat) (name : String) :
    Prop where
  wraps : instr.Wraps address
  sends : instr.target? address = some target
  named : labels[target]? = some name

/-- The table binds the names of a listing to their addresses. -/
def SymbolTable.Follows (table : SymbolTable) (labels : Labels) : Prop :=
  ∀ address name, labels[address]? = some name →
    ∃ symbol, table.lookup? name = some symbol ∧ symbol.address.toNat = address

theorem Instr.WrapsTo.unique {here other : Nat} {shown : String} (left : instr.WrapsTo labels here other shown)
    (right : instr.WrapsTo labels here target name) : other = target ∧ shown = name := by
  cases left.sends.symm.trans right.sends
  cases left.named.symm.trans right.named
  exact ⟨rfl, rfl⟩

theorem Instr.exists_value {here : Nat} (sends : instr.target? here = some target) :
    ∃ value, instr.imm? = some (.value value) := by
  cases instr with
  | jump imm | jal imm | branch _ _ imm =>
      cases imm with
      | value value => exact ⟨value, rfl⟩
      | label name => cases sends
  | alu | immediate | mem | sys => cases sends

/-- Inside the address space, the operand is what a label at its address would stand for. -/
theorem Instr.reference_of_target {value : Int32} {here : Nat} (encodable : instr.Encodable)
    (present : instr.imm? = some (.value value)) (sends : instr.target? here = some target)
    (inside : ¬ instr.Wraps here) : instr.reference target here = value.toInt := by
  cases instr with
  | jump imm | jal imm =>
      cases present
      cases sends
      have bounds : 0 ≤ value.toInt ∧ value.toInt ≤ 4095 := encodable.2 _ rfl value rfl
      have positive : value.toInt = value.toInt.toNat := (Int.toNat_of_nonneg bounds.1).symm
      change (absoluteTarget value : Int) = value.toInt
      rw [absoluteTarget_eq positive, ← positive]
  | branch cond rs imm =>
      cases present
      cases sends
      have bounds : 0 ≤ here + value.toInt ∧ here + value.toInt ≤ 65535 := by
        by_contra outside
        exact inside ⟨cond, rs, value, rfl, outside⟩
      simp only [reference, relativeTarget, addressSpace]
      omega
  | alu | immediate | mem | sys => cases sends

/-- Outside it, that label would be too far away. -/
theorem Instr.not_fits_of_wraps {field : Field} {here : Nat} (encodable : instr.Encodable)
    (slot : instr.immField? = some field) (sends : instr.target? here = some target)
    (bound : here < addressSpace) (wraps : instr.Wraps here) :
    ¬ field.Fits (instr.reference target here) := by
  obtain ⟨cond, rs, offset, isBranch, outside⟩ := wraps
  subst isBranch
  cases sends
  cases slot
  have bounds : -64 ≤ offset.toInt ∧ offset.toInt ≤ 63 := encodable.2 _ rfl offset rfl
  have range : Layout.off7.least = -64 ∧ Layout.off7.greatest = 63 := ⟨rfl, rfl⟩
  rw [Field.Fits, range.1, range.2]
  simp only [reference, relativeTarget, addressSpace] at *
  omega

theorem Statement.resolve_label {field : Field} (slot : stmt.instr.immField? = some field)
    (present : stmt.instr.imm? = some (.label name)) (found : table.lookup? name = some symbol) :
    stmt.resolve table address =
      if field.Fits (stmt.instr.reference symbol.address.toNat address.toNat) then
        .ok ⟨address, stmt.instr.withImm
            (.value (Int32.ofInt (stmt.instr.reference symbol.address.toNat address.toNat))),
          stmt.lineNo, stmt.line⟩
      else
        .error (.overflow (stmt.instr.reference symbol.address.toNat address.toNat)
          field.least field.greatest address stmt.lineNo (some name)) := by
  simp only [Statement.resolve, slot, present, Imm.number, found, LabelMode.number_eq_reference, Imm.label?]

theorem Instr.reference_withImm (imm : Imm) (label here : Nat) :
    (instr.withImm imm).reference label here = instr.reference label here := by
  cases instr <;> rfl

variable {lineNo : Nat} {line : String}

theorem Statement.resolve_named {field : Field} (follows : table.Follows labels) {value : Int32}
    (slot : instr.immField? = some field) (present : instr.imm? = some (.value value))
    (sends : instr.target? address.toNat = some target) (named : labels[target]? = some name) :
    Statement.resolve table ⟨instr.symbolize labels address.toNat, lineNo, line⟩ address =
      if field.Fits (instr.reference target address.toNat) then
        .ok ⟨address, instr.withImm (.value (Int32.ofInt (instr.reference target address.toNat))), lineNo, line⟩
      else
        .error (.overflow (instr.reference target address.toNat) field.least field.greatest address lineNo
          (some name)) := by
  obtain ⟨symbol, found, place⟩ := follows target name named
  rw [Instr.symbolize_of_named sends named, Statement.resolve_label (by rw [Instr.immField?_withImm, slot])
    (Instr.imm?_withImm present) found, Instr.reference_withImm, Instr.withImm_withImm, place]

theorem Statement.resolve_symbolize (encodable : instr.Encodable) (follows : table.Follows labels)
    (inside : ¬ ∃ target name, instr.WrapsTo labels address.toNat target name) :
    Statement.resolve table ⟨instr.symbolize labels address.toNat, lineNo, line⟩ address =
      .ok ⟨address, instr, lineNo, line⟩ := by
  by_cases listed : ∃ target name, instr.target? address.toNat = some target ∧ labels[target]? = some name
  · obtain ⟨target, name, sends, named⟩ := listed
    obtain ⟨value, present⟩ := Instr.exists_value sends
    obtain ⟨field, slot⟩ := Instr.exists_immField present
    have straight : ¬ instr.Wraps address.toNat := fun wraps => inside ⟨target, name, wraps, sends, named⟩
    have fits : field.Fits value.toInt := encodable.2 field slot value (by rw [present]; rfl)
    rw [resolve_named follows slot present sends named,
      Instr.reference_of_target encodable present sends straight, if_pos fits, Int32.ofInt_toInt,
      Instr.withImm_self present]
  · have unnamed : ∀ target, instr.target? address.toNat = some target → labels[target]? = none := by
      intro target sends
      cases named : labels[target]? with
      | none => rfl
      | some name => exact absurd ⟨target, name, sends, named⟩ listed
    rw [Instr.symbolize_of_unnamed unnamed]
    exact resolve_of_encodable encodable

theorem Statement.resolve_symbolize_of_wrapsTo (encodable : instr.Encodable) (follows : table.Follows labels)
    (wrapsTo : instr.WrapsTo labels address.toNat target name) :
    Statement.resolve table ⟨instr.symbolize labels address.toNat, lineNo, line⟩ address =
      .error (.overflow ((target : Int) - address.toNat) (-64) 63 address lineNo (some name)) := by
  obtain ⟨value, present⟩ := Instr.exists_value wrapsTo.sends
  obtain ⟨field, slot⟩ := Instr.exists_immField present
  have far := Instr.not_fits_of_wraps encodable slot wrapsTo.sends address.toNat_lt wrapsTo.wraps
  rw [resolve_named follows slot present wrapsTo.sends wrapsTo.named, if_neg far]
  obtain ⟨cond, rs, offset, isBranch, _⟩ := wrapsTo.wraps
  subst isBranch
  cases slot
  rfl

theorem Program.substitute_singleton (stmt : Statement) (reporting : Reporting) (origin : Word)
    (table : SymbolTable) :
    substitute ⟨[.stmt stmt]⟩ reporting origin table =
      ((stmt.resolve table origin).map ([·])).mapError ([·]) := by
  have placed : Program.placed ⟨[.stmt stmt]⟩ origin = [(stmt, origin)] := by
    simp [Program.placed, Program.statements, Item.stmt?]
  rw [substitute, placed, Reporting.traverse_singleton]

def Labels.symbols (labels : Labels) : List Symbol :=
  labels.toList.map fun pair => ⟨pair.2, UInt16.ofNat pair.1, 0⟩

/-- No two addresses share a name. -/
def Labels.Distinct (labels : Labels) : Prop :=
  ∀ (left right : Nat) (name : String), labels[left]? = some name → labels[right]? = some name → left = right

theorem Labels.nodup_names (distinct : labels.Distinct) :
    (labels.symbols.map Symbol.name).Nodup := by
  rw [symbols, List.map_map]
  refine List.pairwise_map.mpr (Std.TreeMap.distinct_keys_toList.imp_of_mem ?_)
  intro left right leftMember rightMember different same
  have leftNamed := Std.TreeMap.mem_toList_iff_getElem?_eq_some.mp leftMember
  have rightNamed := Std.TreeMap.mem_toList_iff_getElem?_eq_some.mp rightMember
  have sameName : left.2 = right.2 := same
  exact different (Nat.compare_eq_eq.mpr (distinct _ _ _ leftNamed (sameName ▸ rightNamed)))

theorem SymbolTable.find?_of_mem {symbols : List Symbol} (distinct : (symbols.map Symbol.name).Nodup)
    (member : symbol ∈ symbols) : symbols.find? (·.name = symbol.name) = some symbol := by
  refine (find?_eq_some_iff_of_unique ?_).mpr ⟨member, decide_eq_true rfl⟩
  intro left leftMember right rightMember leftName rightName
  exact List.inj_on_of_nodup_map distinct leftMember rightMember
    ((of_decide_eq_true leftName).trans (of_decide_eq_true rightName).symm)

theorem Labels.exists_table (short : ∀ address ∈ labels, address < addressSpace) (distinct : labels.Distinct) :
    ∃ table, SymbolTable.empty.defineEach labels.symbols = .ok table ∧ table.Follows labels := by
  have apart := nodup_names distinct
  obtain ⟨table, defined, represents⟩ := SymbolTable.empty_represents.defineEach_exists apart
  refine ⟨table, defined, ?_⟩
  intro address name named
  have member : (⟨name, UInt16.ofNat address, 0⟩ : Symbol) ∈ labels.symbols :=
    List.mem_map.mpr ⟨(address, name), Std.TreeMap.mem_toList_iff_getElem?_eq_some.mpr named, rfl⟩
  have bound : address < addressSpace :=
    short address (Std.TreeMap.mem_iff_isSome_getElem?.mpr (by rw [named]; rfl))
  refine ⟨_, (represents name).trans (SymbolTable.find?_of_mem apart member), ?_⟩
  exact UInt16.toNat_ofNat_of_lt bound

/-- Resolving a listed instruction gives the instruction back, unless it is a branch that wraps
around to a name: the offset to that name is then refused. -/
theorem substitute_symbolize_iff {word : Word} (encoded : encode instr = .ok word)
    (short : ∀ address ∈ labels, address < addressSpace) (distinct : labels.Distinct) :
    (∃ table, SymbolTable.empty.defineEach labels.symbols = .ok table ∧ table.Follows labels) ∧
      ∀ table, table.Follows labels → ∀ (reporting : Reporting) (address : Word) (lineNo : Nat) (line : String),
        let listed : Program := ⟨[.stmt ⟨instr.symbolize labels address.toNat, lineNo, line⟩]⟩
        (∀ resolved, listed.substitute reporting address table = .ok resolved ↔
          (¬ ∃ target name, instr.WrapsTo labels address.toNat target name) ∧
            resolved = [⟨address, instr, lineNo, line⟩]) ∧
        ∀ errors, listed.substitute reporting address table = .error errors ↔
          ∃ target name, instr.WrapsTo labels address.toNat target name ∧
            errors = [.overflow ((target : Int) - address.toNat) (-64) 63 address lineNo (some name)] := by
  have encodable := Instr.exists_encode_iff_encodable.mp ⟨word, encoded⟩
  refine ⟨Labels.exists_table short distinct, ?_⟩
  intro table follows reporting address lineNo line
  simp only [Program.substitute_singleton]
  by_cases wraps : ∃ target name, instr.WrapsTo labels address.toNat target name
  · obtain ⟨target, name, wrapsTo⟩ := wraps
    rw [Statement.resolve_symbolize_of_wrapsTo encodable follows wrapsTo]
    refine ⟨fun resolved => ⟨nofun, fun ⟨straight, _⟩ => absurd ⟨target, name, wrapsTo⟩ straight⟩, ?_⟩
    refine fun errors => ⟨?_, ?_⟩
    · rintro ⟨⟩
      exact ⟨target, name, wrapsTo, rfl⟩
    · rintro ⟨other, shown, also, rfl⟩
      obtain ⟨rfl, rfl⟩ := also.unique wrapsTo
      rfl
  · rw [Statement.resolve_symbolize encodable follows wraps]
    refine ⟨fun resolved => ⟨?_, ?_⟩, fun errors => ⟨nofun, ?_⟩⟩
    · rintro ⟨⟩
      exact ⟨wraps, rfl⟩
    · rintro ⟨_, rfl⟩
      rfl
    · rintro ⟨target, name, wrapsTo, _⟩
      exact absurd ⟨target, name, wrapsTo⟩ wraps

/-- A branch back from address 2 goes below zero and so to the label at the top, which is out of its
reach. The same branch from address 7 has its label at hand. -/
theorem substitute_symbolize_wrapped :
    let labels := Labels.ofPairs [(65534, "top"), (3, "low")]
    let instr := Instr.branch .nonzero 1 (.value (-4))
    ∃ table, SymbolTable.empty.defineEach labels.symbols = .ok table ∧
      Program.substitute ⟨[.stmt ⟨instr.symbolize labels 7, 1, ""⟩]⟩ .first 7 table =
        .ok [⟨7, instr, 1, ""⟩] ∧
      Program.substitute ⟨[.stmt ⟨instr.symbolize labels 2, 1, ""⟩]⟩ .first 2 table =
        .error [.overflow 65532 (-64) 63 2 1 (some "top")] := by
  intro labels instr
  have encoded : encode instr = .ok 0x81FC := by decide
  have short : ∀ address ∈ labels, address < addressSpace := by
    intro address member
    simp [labels, Labels.ofPairs, Std.TreeMap.mem_insert] at member
    unfold addressSpace
    omega
  have distinct : labels.Distinct := by
    intro left right name
    simp [labels, Labels.ofPairs, Std.TreeMap.getElem?_insert]
    grind
  obtain ⟨⟨table, defined, follows⟩, results⟩ := substitute_symbolize_iff encoded short distinct
  refine ⟨table, defined, ((results table follows .first 7 1 "").1 _).mpr ⟨?_, rfl⟩,
    ((results table follows .first 2 1 "").2 _).mpr ⟨65534, "top", ?_, rfl⟩⟩
  · rintro ⟨target, name, ⟨⟨cond, rs, offset, same, outside⟩, _, _⟩⟩
    simp only [instr, Instr.branch.injEq, Imm.value.injEq] at same
    obtain ⟨_, _, rfl⟩ := same
    exact outside (by decide)
  · exact ⟨⟨.nonzero, 1, -4, rfl, by decide⟩, by decide, by decide⟩

section

variable {source : String} {config : Config} {assembly : Assembly} {program : Program} {origin : Word}
  {kind : EdgeKind}

theorem Labels.getElem?_ofPairs (pairs : List (Nat × String)) (address : Nat) :
    (ofPairs pairs)[address]? = (pairs.reverse.find? (·.1 = address)).map Prod.snd := by
  induction pairs using List.reverseRecOn with
  | nil => rfl
  | append_singleton pairs pair ih =>
      have extended : ofPairs (pairs ++ [pair]) = (ofPairs pairs).insert pair.1 pair.2 := by
        rw [ofPairs, List.foldl_append]
        rfl
      rw [extended, Std.TreeMap.getElem?_insert, List.reverse_append, List.reverse_singleton,
        List.singleton_append, List.find?_cons]
      by_cases same : pair.1 = address
      · simp [same]
      · simp [same, ih]

/-- The names of symbols at their addresses. Of several at one address the last stays. -/
def Labels.ofSymbols (symbols : List Symbol) : Labels :=
  ofPairs (symbols.map fun symbol => (symbol.address.toNat, symbol.name))

theorem Labels.exists_getElem?_ofSymbols {symbols : List Symbol} (member : symbol ∈ symbols) :
    ∃ shown ∈ symbols, shown.address = symbol.address ∧
      (ofSymbols symbols)[symbol.address.toNat]? = some shown.name := by
  rw [ofSymbols, getElem?_ofPairs]
  cases found : List.find? (fun pair => decide (pair.1 = symbol.address.toNat))
      (symbols.map fun symbol => (symbol.address.toNat, symbol.name)).reverse with
  | none =>
      have absent := List.find?_eq_none.mp found (symbol.address.toNat, symbol.name)
        (List.mem_reverse.mpr (List.mem_map.mpr ⟨symbol, member, rfl⟩))
      simp at absent
  | some pair =>
      have place : pair.1 = symbol.address.toNat := by simpa using List.find?_some found
      obtain ⟨shown, among, same⟩ := List.mem_map.mp (List.mem_reverse.mp (List.mem_of_find?_eq_some found))
      subst same
      exact ⟨shown, among, UInt16.toNat_inj.mp place, rfl⟩

theorem Instr.transfer?_withImm (imm : Imm) : (instr.withImm imm).transfer? = instr.transfer? := by
  cases instr <;> rfl

theorem Instr.target?_withImm {value : Int32} {here : Nat} (transfers : instr.transfer? = some kind)
    (bound : target < addressSpace) (refers : value.toInt = instr.reference target here) :
    (instr.withImm (.value value)).target? here = some target := by
  cases instr with
  | jump | jal => exact congrArg some (absoluteTarget_eq refers)
  | branch => exact congrArg some (relativeTarget_eq bound refers)
  | alu | immediate | mem | sys => cases transfers

theorem Program.exists_symbol (represents : table.Represents (program.labels origin))
    (distinct : program.definedNames.Nodup) (small : origin.toNat + program.size < addressSpace)
    (bound : program.Binds origin name target) :
    ∃ symbol, symbol.address.toNat = target ∧
      ∀ other, other ∈ table.sorted ∧ other.name = name ↔ other = symbol := by
  obtain ⟨symbol, found, place⟩ := (lookup?_iff_binds represents distinct small).mpr bound
  have named : symbol.name = name := SymbolTable.name_of_find? (represents name ▸ found)
  refine ⟨symbol, place, fun other => ?_⟩
  rw [represents.mem_sorted_iff]
  refine ⟨?_, ?_⟩
  · rintro ⟨known, rfl⟩
    exact Option.some.inj (known.symm.trans found)
  · rintro rfl
    exact ⟨by rwa [named], named⟩

/-- The assembled instruction leads to the symbol, and reads as the statement does once a name for
the symbol's address is put in. -/
structure Assembly.Retraces (assembly : Assembly) (stmt : Statement) (kind : EdgeKind) (symbol : Symbol)
    (here : Word) (instr : Instr) : Prop where
  leads : (symbol.address.toNat, kind) ∈ instr.successors here.toNat
  reads : ∃ shown ∈ assembly.symbols, shown.address = symbol.address ∧
    instr.symbolize (.ofSymbols assembly.symbols) here.toNat = stmt.instr.withImm (.label shown.name)
  restores : (∀ other ∈ assembly.symbols, other.address = symbol.address → other = symbol) →
    instr.symbolize (.ofSymbols assembly.symbols) here.toNat = stmt.instr

theorem Assembly.retraces_of_target {here : Word} {value : Int32} (member : symbol ∈ assembly.symbols)
    (transfers : stmt.instr.transfer? = some kind) (label : stmt.instr.label? = some symbol.name)
    (sends : (stmt.instr.withImm (.value value)).target? here.toNat = some symbol.address.toNat) :
    assembly.Retraces stmt kind symbol here (stmt.instr.withImm (.value value)) := by
  obtain ⟨shown, among, place, named⟩ := Labels.exists_getElem?_ofSymbols member
  have reads : (stmt.instr.withImm (.value value)).symbolize (.ofSymbols assembly.symbols) here.toNat =
      stmt.instr.withImm (.label shown.name) := by
    rw [Instr.symbolize_of_named sends named, Instr.withImm_withImm]
  refine ⟨?_, ⟨shown, among, place, reads⟩, fun alone => ?_⟩
  · have leaves := Instr.ne_fallthrough_of_transfer? transfers
    exact (Instr.mem_successors_iff leaves).mpr ⟨by rw [Instr.transfer?_withImm, transfers], sends⟩
  · rw [reads, alone shown among place]
    exact Instr.withImm_self (Instr.label?_eq_some_iff.mp label)

/-- What was assembled from a jump, call or branch to a label leads to that label and is listed
with it, or with another label of the same address. -/
theorem assemble_retraces_labels (assembled : assemble source config = .ok assembly) :
    ∃ program, Program.parseWith config.reporting source = .ok program ∧
      ∀ (index : Nat) (stmt : Statement) (kind : EdgeKind) (name : String),
        program.statements[index]? = some stmt → stmt.instr.transfer? = some kind →
        stmt.instr.label? = some name →
        ∃ (result : Resolved) (word : Word) (instr : Instr) (symbol : Symbol),
          assembly.statements[index]? = some result ∧
          assembly.words[index]? = some word ∧ decode word = .ok instr ∧
          (∀ other, other ∈ assembly.symbols ∧ other.name = name ↔ other = symbol) ∧
          assembly.Retraces stmt kind symbol result.address instr := by
  obtain ⟨program, table, parsed, bound, substituted, encoded, symbols⟩ := assemble_eq_ok_iff.mp assembled
  obtain ⟨small, distinct, represents⟩ := Program.of_symbols_eq_ok bound
  refine ⟨program, parsed, ?_⟩
  intro index stmt kind name found transfers label
  obtain ⟨result, word, resultAt, wordAt, places, made⟩ :=
    Program.exists_statement_at bound substituted encoded found
  obtain ⟨target, value, binds, refers, substitutes⟩ := places.substituted name label
  obtain ⟨symbol, place, only⟩ := Program.exists_symbol represents distinct small binds
  rw [← symbols] at only
  obtain ⟨member, named⟩ := (only symbol).mpr rfl
  subst place named
  rw [← places.address] at refers
  refine ⟨result, word, result.instr, symbol, resultAt, wordAt, ?_, only, ?_⟩
  · exact Instr.encode_eq_ok_iff_decode.mp made
  · rw [substitutes]
    exact Assembly.retraces_of_target member transfers label
      (Instr.target?_withImm transfers symbol.address.toNat_lt refers)

/-- The branch to `again`, which shares its address with `start`. -/
theorem assemble_retraces_again :
    let source := "start:\nagain: ADDI, $r1, end\nBNEZ, $r1, again\nJUMP, end\nend:"
    let stmt : Statement := ⟨.branch .nonzero 1 (.label "again"), 3, "BNEZ, $r1, again"⟩
    ∃ assembly, assemble source ⟨32, .all⟩ = .ok assembly ∧ ∃ program,
      Program.parseWith .all source = .ok program ∧ program.statements[1]? = some stmt ∧
      ∃ (result : Resolved) (word : Word) (instr : Instr) (symbol : Symbol),
        assembly.statements[1]? = some result ∧ assembly.words[1]? = some word ∧
        decode word = .ok instr ∧
        (∀ other, other ∈ assembly.symbols ∧ other.name = "again" ↔ other = symbol) ∧
        assembly.Retraces stmt .condBranch symbol result.address instr := by
  intro source stmt
  have runs : (assemble source ⟨32, .all⟩).toOption.map (·.words) = some [0x1123, 0x81FF, 0x9023] := by
    decide +kernel
  have reads : (Program.parseWith .all source).toOption.map (·.statements[1]?) = some (some stmt) := by
    decide +kernel
  obtain ⟨assembly, success, _⟩ := Option.map_eq_some_iff.mp runs
  rw [toOption_eq_some_iff] at success
  obtain ⟨program, parsed, retraces⟩ := assemble_retraces_labels success
  rw [parsed] at reads
  have found : program.statements[1]? = some stmt := Option.some.inj reads
  exact ⟨assembly, success, program, parsed, found, retraces 1 stmt .condBranch "again" found rfl rfl⟩

end

end Asm16
