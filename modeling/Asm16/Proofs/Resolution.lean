import Asm16.Proofs.Binding

namespace Asm16

/-- The number that a label at `address` stands for in an instruction at `here`: branches count from
where they stand. -/
def Instr.reference (instr : Instr) (address here : Nat) : Int :=
  match instr with
  | .branch .. => (address : Int) - here
  | _ => address

namespace Program

/-- The number that an immediate denotes in an instruction at `here`. -/
def Denotes (program : Program) (origin : Word) (instr : Instr) (here : Nat) (imm : Imm)
    (number : Int) : Prop :=
  match imm with
  | .value value => number = value.toInt
  | .label name => ∃ address, program.Binds origin name address ∧ number = instr.reference address here

theorem Denotes.unique {program : Program} {origin : Word} {instr : Instr} {here : Nat} {imm : Imm}
    {left right : Int} (leftDenotes : program.Denotes origin instr here imm left)
    (rightDenotes : program.Denotes origin instr here imm right) : left = right := by
  cases imm with
  | value value => exact leftDenotes.trans rightDenotes.symm
  | label name =>
      obtain ⟨address, bound, isLeft⟩ := leftDenotes
      obtain ⟨other, alsoBound, isRight⟩ := rightDenotes
      rw [isLeft, isRight, bound.unique alsoBound]

theorem exists_denotes {program : Program} {origin : Word} {instr : Instr} {here : Nat} (imm : Imm)
    (distinct : program.definedNames.Nodup)
    (defined : ∀ name, imm = .label name → name ∈ program.definedNames) :
    ∃ number, program.Denotes origin instr here imm number := by
  cases imm with
  | value value => exact ⟨_, rfl⟩
  | label name =>
      obtain ⟨address, bound⟩ := exists_binds distinct (defined name rfl)
      exact ⟨_, address, bound, rfl⟩

structure WellFormed (program : Program) (origin : Word) : Prop where
  size : origin.toNat + program.size ≤ 65535
  distinct : program.definedNames.Nodup
  defined : ∀ stmt ∈ program.statements, ∀ name ∈ stmt.instr.label?, name ∈ program.definedNames
  inRange : ∀ index stmt, program.statements[index]? = some stmt →
    ∀ field ∈ stmt.instr.immField?, ∀ imm ∈ stmt.instr.imm?, ∃ number,
      program.Denotes origin stmt.instr (origin.toNat + index) imm number ∧ field.Fits number

/-- What is wrong with the statement at an index. -/
inductive StatementFault (program : Program) (origin : Word) (index : Nat) (stmt : Statement) :
    ResolveError → Prop
  | undefinedLabel {name : String} {address : Word}
      (label : stmt.instr.label? = some name) (undefined : name ∉ program.definedNames)
      (place : address.toNat = origin.toNat + index) :
      StatementFault program origin index stmt (.undefinedLabel name address stmt.lineNo stmt.line)
  | overflow {field : Field} {imm : Imm} {number : Int} {address : Word}
      (slot : stmt.instr.immField? = some field) (present : stmt.instr.imm? = some imm)
      (denotes : program.Denotes origin stmt.instr (origin.toNat + index) imm number)
      (outside : ¬ field.Fits number) (place : address.toNat = origin.toNat + index) :
      StatementFault program origin index stmt
        (.overflow number field.least field.greatest address stmt.lineNo imm.label?)

/-- What is wrong with the program, in the order in which it is looked for. -/
inductive FirstFault (program : Program) (origin : Word) : ResolveError → Prop
  | programTooLarge (large : 65535 < origin.toNat + program.size) :
      FirstFault program origin (.programTooLarge program.size origin)
  | duplicateLabel {before after head tail : Program} {name : String} {lineNo firstLineNo : Nat}
      (size : origin.toNat + program.size ≤ 65535)
      (second : program.Splits before name lineNo after) (distinct : before.definedNames.Nodup)
      (first : before.Splits head name firstLineNo tail) :
      FirstFault program origin (.duplicateLabel ⟨name, lineNo, firstLineNo⟩)
  | statement {index : Nat} {stmt : Statement} {error : ResolveError}
      (size : origin.toNat + program.size ≤ 65535) (distinct : program.definedNames.Nodup)
      (found : program.statements[index]? = some stmt)
      (earlier : ∀ before < index, ∀ other, program.statements[before]? = some other →
        ∀ fault, ¬ program.StatementFault origin before other fault)
      (fault : program.StatementFault origin index stmt error) :
      FirstFault program origin error

end Program

theorem LabelMode.number_eq_reference (instr : Instr) (label here : Word) :
    instr.opcode.layout.labels.number label here = instr.reference label.toNat here.toNat := by
  cases instr with
  | immediate op => cases op <;> rfl
  | _ => rfl

theorem Instr.isSome_immField? (instr : Instr) : instr.immField?.isSome = instr.imm?.isSome := by
  cases instr with
  | immediate op => cases op <;> rfl
  | _ => rfl

theorem Instr.exists_immField {instr : Instr} {imm : Imm} (present : instr.imm? = some imm) :
    ∃ field, instr.immField? = some field := by
  rw [← Option.isSome_iff_exists, Instr.isSome_immField?, present]
  rfl

theorem Instr.label?_eq_some_iff {instr : Instr} {name : String} :
    instr.label? = some name ↔ instr.imm? = some (.label name) := by
  rw [Instr.label?]
  rcases instr.imm? with _ | _ | _ <;> simp [Imm.label?]

section

variable {program : Program} {origin address : Word} {table : SymbolTable} {index : Nat}
  {stmt : Statement} {imm : Imm} {number : Int} {error : ResolveError}

theorem Imm.number_eq_ok_iff (represents : table.Represents (program.labels origin))
    (distinct : program.definedNames.Nodup) (small : origin.toNat + program.size < addressSpace)
    (instr : Instr) :
    imm.number table instr.opcode.layout.labels address = .ok number ↔
      program.Denotes origin instr address.toNat imm number := by
  cases imm with
  | value value => simp [Imm.number, Program.Denotes, eq_comm]
  | label name =>
      simp only [Program.Denotes, ← Program.lookup?_iff_binds represents distinct small]
      cases found : table.lookup? name with
      | none => simp [Imm.number, found]
      | some symbol => simp [Imm.number, found, LabelMode.number_eq_reference, eq_comm]

theorem Imm.number_eq_error_iff {name : String} {mode : LabelMode}
    (represents : table.Represents (program.labels origin)) :
    imm.number table mode address = .error name ↔
      imm = .label name ∧ name ∉ program.definedNames := by
  rw [← Program.lookup?_eq_none_iff represents]
  cases imm with
  | value value => simp [Imm.number]
  | label other =>
      simp only [Imm.number, Imm.label.injEq]
      constructor
      · intro missing
        cases found : table.lookup? other with
        | none =>
            rw [found] at missing
            cases missing
            exact ⟨rfl, found⟩
        | some symbol => simp [found] at missing
      · intro ⟨same, absent⟩
        subst same
        rw [absent]

theorem Statement.resolve_eq_error_iff (represents : table.Represents (program.labels origin))
    (distinct : program.definedNames.Nodup) (small : origin.toNat + program.size < addressSpace)
    (place : address.toNat = origin.toNat + index) :
    stmt.resolve table address = .error error ↔ program.StatementFault origin index stmt error := by
  have samePlace : ∀ {other : Word}, other.toNat = origin.toNat + index → other = address :=
    fun there => UInt16.toNat_inj.mp (there.trans place.symm)
  have numbers := fun imm number =>
    @Imm.number_eq_ok_iff program origin address table imm number represents distinct small stmt.instr
  rw [place] at numbers
  constructor
  · intro failed
    unfold Statement.resolve at failed
    split at failed
    · rename_i field imm slot present
      split at failed
      · rename_i name missing
        obtain ⟨label, undefined⟩ := (Imm.number_eq_error_iff represents).mp missing
        cases failed
        exact .undefinedLabel (Instr.label?_eq_some_iff.mpr (label ▸ present)) undefined place
      · rename_i number known
        split at failed
        · cases failed
        · rename_i outside
          cases failed
          exact .overflow slot present ((numbers imm number).mp known) outside place
    · cases failed
  · intro fault
    cases fault with
    | undefinedLabel label undefined there =>
        cases samePlace there
        have present := Instr.label?_eq_some_iff.mp label
        obtain ⟨field, slot⟩ := Instr.exists_immField present
        have missing := fun mode => (@Imm.number_eq_error_iff program origin address table
          _ _ mode represents).mpr ⟨rfl, undefined⟩
        simp only [Statement.resolve, slot, present, missing]
    | overflow slot present denotes outside there =>
        cases samePlace there
        simp only [Statement.resolve, slot, present, (numbers _ _).mpr denotes, if_neg outside]

end

namespace Program

variable {program : Program} {origin : Word} {table : SymbolTable} {reporting : Reporting}
  {errors : List ResolveError} {resolved : List Resolved}

theorem getElem?_placed (program : Program) (origin : Word) (index : Nat) :
    (program.placed origin)[index]? =
      program.statements[index]?.map fun stmt => (stmt, origin + UInt16.ofNat index) := by
  simp [placed, List.getElem?_zipIdx, Function.comp_def]

theorem length_placed (program : Program) (origin : Word) : (program.placed origin).length = program.size := by
  rw [placed, List.length_map, List.length_zipIdx, size]

theorem toNat_address {index : Nat} {stmt : Statement}
    (small : origin.toNat + program.size < addressSpace)
    (found : program.statements[index]? = some stmt) :
    (origin + UInt16.ofNat index).toNat = origin.toNat + index := by
  have bound : index < program.size := (List.getElem?_eq_some_iff.mp found).1
  exact toNat_origin_add (by omega)

theorem of_symbols_eq_ok (bound : program.symbols reporting origin = .ok table) :
    origin.toNat + program.size < addressSpace ∧ program.definedNames.Nodup ∧
      table.Represents (program.labels origin) := by
  unfold symbols at bound
  split at bound
  · rename_i small
    rw [← map_name_labels program origin]
    cases reporting with
    | first =>
        have defined := mapError_eq_ok_iff.mp bound
        obtain ⟨represents, distinct⟩ := SymbolTable.empty_represents.of_defineEach .nil defined
        exact ⟨small, distinct, represents⟩
    | all =>
        have defined := mapError_eq_ok_iff.mp bound
        obtain ⟨represents, distinct⟩ := SymbolTable.represents_of_defineAll defined
        exact ⟨small, distinct, represents⟩
  · cases bound

theorem symbols_of_no_labels (small : origin.toNat + program.size < addressSpace)
    (unlabelled : program.definedNames = []) : program.symbols reporting origin = .ok .empty := by
  have none : program.labels origin = [] := by
    rw [← List.map_eq_nil_iff, map_name_labels, unlabelled]
  rw [symbols, if_pos small, none]
  cases reporting <;> rfl

theorem exists_symbols_first (small : origin.toNat + program.size < addressSpace)
    (distinct : program.definedNames.Nodup) : ∃ table, program.symbols .first origin = .ok table := by
  rw [← map_name_labels program origin, ← SymbolTable.defineEach_ok_iff] at distinct
  obtain ⟨table, defined⟩ := distinct
  exact ⟨table, by rw [symbols, if_pos small]; exact mapError_eq_ok_iff.mpr defined⟩

theorem resolve_eq_ok_iff :
    program.resolve reporting origin = .ok resolved ↔
      ∃ table, program.symbols reporting origin = .ok table ∧
        List.Forall₂ (fun pair result => Statement.resolve table pair.1 pair.2 = .ok result)
          (program.placed origin) resolved := by
  simp only [resolve, bind_eq_ok_iff, substitute, Reporting.traverse_eq_ok_iff]

theorem wellFormed_iff :
    program.WellFormed origin ↔
      origin.toNat + program.size < addressSpace ∧ program.definedNames.Nodup ∧
        ∀ index stmt, program.statements[index]? = some stmt →
          ∀ fault, ¬ program.StatementFault origin index stmt fault := by
  constructor
  · intro wellFormed
    refine ⟨Nat.lt_succ_of_le wellFormed.size, wellFormed.distinct, ?_⟩
    intro index stmt found error fault
    cases fault with
    | undefinedLabel label undefined =>
        exact undefined (wellFormed.defined stmt (List.mem_of_getElem? found) _ label)
    | overflow slot present denotes outside =>
        obtain ⟨number, same, fits⟩ := wellFormed.inRange index stmt found _ slot _ present
        exact outside (same.unique denotes ▸ fits)
  · intro ⟨small, distinct, faultless⟩
    have defined : ∀ stmt ∈ program.statements, ∀ name ∈ stmt.instr.label?,
        name ∈ program.definedNames := by
      intro stmt member name label
      obtain ⟨index, found⟩ := List.mem_iff_getElem?.mp member
      by_contra undefined
      exact faultless index stmt found _ (.undefinedLabel label undefined (toNat_address small found))
    refine ⟨Nat.le_of_lt_succ small, distinct, defined, ?_⟩
    intro index stmt found field slot imm present
    obtain ⟨number, denotes⟩ := exists_denotes imm distinct fun name label =>
      defined stmt (List.mem_of_getElem? found) name (Instr.label?_eq_some_iff.mpr (label ▸ present))
    refine ⟨number, denotes, ?_⟩
    by_contra outside
    exact faultless index stmt found _
      (.overflow slot present denotes outside (toNat_address small found))

theorem substitute_first_eq_error_iff (represents : table.Represents (program.labels origin))
    (distinct : program.definedNames.Nodup) (small : origin.toNat + program.size < addressSpace) :
    program.substitute .first origin table = .error errors ↔
      ∃ index stmt error, errors = [error] ∧ program.statements[index]? = some stmt ∧
        (∀ before < index, ∀ other, program.statements[before]? = some other →
          ∀ fault, ¬ program.StatementFault origin before other fault) ∧
        program.StatementFault origin index stmt error := by
  have faults : ∀ {index stmt error}, program.statements[index]? = some stmt →
      (Statement.resolve table stmt (origin + UInt16.ofNat index) = .error error ↔
        program.StatementFault origin index stmt error) :=
    fun found => Statement.resolve_eq_error_iff represents distinct small (toNat_address small found)
  simp only [substitute, Reporting.traverse, mapError_eq_error_iff, mapM_eq_error_iff, FirstFailure,
    getElem?_placed]
  constructor
  · intro failure
    obtain ⟨error, ⟨index, ⟨pair, located, failed⟩, earlier⟩, reported⟩ := failure
    obtain ⟨stmt, found, same⟩ := Option.map_eq_some_iff.mp located
    subst same
    refine ⟨index, stmt, error, reported.symm, found, ?_, (faults found).mp failed⟩
    intro before less other there fault faulty
    obtain ⟨result, resolved⟩ := earlier before less _ (by rw [there]; rfl)
    rw [(faults there).mpr faulty] at resolved
    cases resolved
  · intro fault
    obtain ⟨index, stmt, error, reported, found, earlier, faulty⟩ := fault
    refine ⟨error, ⟨index, ⟨_, by rw [found]; rfl, (faults found).mpr faulty⟩, ?_⟩, reported.symm⟩
    intro before less pair located
    obtain ⟨other, there, same⟩ := Option.map_eq_some_iff.mp located
    subst same
    cases outcome : Statement.resolve table other (origin + UInt16.ofNat before) with
    | ok result => exact ⟨result, rfl⟩
    | error fault => exact absurd ((faults there).mp outcome) (earlier before less other there fault)

theorem symbols_first_eq_error_iff :
    program.symbols .first origin = .error errors ↔
      ∃ error, errors = [error] ∧
        ((addressSpace ≤ origin.toNat + program.size ∧ error = .programTooLarge program.size origin) ∨
          origin.toNat + program.size < addressSpace ∧
          ∃ duplicate, SymbolTable.empty.defineEach (program.labels origin) = .error duplicate ∧
            error = .duplicateLabel duplicate) := by
  unfold symbols
  split
  · rename_i small
    simp only [mapError_eq_error_iff]
    constructor
    · intro ⟨duplicate, refused, reported⟩
      exact ⟨_, reported.symm, .inr ⟨small, duplicate, refused, rfl⟩⟩
    · intro ⟨error, reported, cause⟩
      rcases cause with ⟨large, _⟩ | ⟨_, duplicate, refused, same⟩
      · omega
      · exact ⟨duplicate, refused, by rw [reported, same]⟩
  · rename_i large
    constructor
    · intro failed
      cases failed
      exact ⟨_, rfl, .inl ⟨by omega, rfl⟩⟩
    · intro ⟨error, reported, cause⟩
      rcases cause with ⟨_, same⟩ | ⟨small, _⟩
      · rw [reported, same]
      · exact absurd small large

theorem resolve_first_eq_error_iff :
    program.resolve .first origin = .error errors ↔
      ∃ error, errors = [error] ∧ program.FirstFault origin error := by
  rw [resolve, bind_eq_error_iff]
  constructor
  · intro failed
    rcases failed with refused | ⟨table, bound, refused⟩
    · obtain ⟨error, reported, cause⟩ := symbols_first_eq_error_iff.mp refused
      refine ⟨error, reported, ?_⟩
      rcases cause with ⟨large, same⟩ | ⟨small, duplicate, refused, same⟩
      · subst same
        exact .programTooLarge large
      · obtain ⟨before, after, head, tail, name, lineNo, firstLineNo, second, distinct, first, described⟩ :=
          defineEach_labels_eq_error_iff.mp refused
        subst same described
        exact .duplicateLabel (Nat.le_of_lt_succ small) second distinct first
    · obtain ⟨small, distinct, represents⟩ := of_symbols_eq_ok bound
      obtain ⟨index, stmt, error, reported, found, earlier, fault⟩ :=
        (substitute_first_eq_error_iff represents distinct small).mp refused
      exact ⟨error, reported, .statement (Nat.le_of_lt_succ small) distinct found earlier fault⟩
  · intro ⟨error, reported, fault⟩
    subst reported
    cases fault with
    | programTooLarge large =>
        exact .inl (symbols_first_eq_error_iff.mpr ⟨_, rfl, .inl ⟨large, rfl⟩⟩)
    | duplicateLabel size second distinct first =>
        have refused := (@defineEach_labels_eq_error_iff program origin _).mpr
          ⟨_, _, _, _, _, _, _, second, distinct, first, rfl⟩
        exact .inl (symbols_first_eq_error_iff.mpr
          ⟨_, rfl, .inr ⟨Nat.lt_succ_of_le size, _, refused, rfl⟩⟩)
    | statement size distinct found earlier fault =>
        obtain ⟨table, bound⟩ := exists_symbols_first (Nat.lt_succ_of_le size) distinct
        obtain ⟨small, _, represents⟩ := of_symbols_eq_ok bound
        exact .inr ⟨table, bound, (substitute_first_eq_error_iff represents distinct small).mpr
          ⟨_, _, _, rfl, found, earlier, fault⟩⟩

theorem exists_resolve_first_iff :
    (∃ resolved, program.resolve .first origin = .ok resolved) ↔ program.WellFormed origin := by
  rw [wellFormed_iff]
  constructor
  · intro ⟨resolved, success⟩
    obtain ⟨table, bound, related⟩ := resolve_eq_ok_iff.mp success
    obtain ⟨small, distinct, represents⟩ := of_symbols_eq_ok bound
    refine ⟨small, distinct, ?_⟩
    intro index stmt found error fault
    have member : (stmt, origin + UInt16.ofNat index) ∈ program.placed origin :=
      List.mem_of_getElem? (i := index) (by rw [getElem?_placed, found]; rfl)
    obtain ⟨result, resolved⟩ := exists_ok_of_mem related member
    have place := toNat_address small found
    rw [(Statement.resolve_eq_error_iff represents distinct small place).mpr fault] at resolved
    cases resolved
  · intro ⟨small, distinct, faultless⟩
    cases outcome : program.resolve .first origin with
    | ok resolved => exact ⟨resolved, rfl⟩
    | error errors =>
        obtain ⟨error, _, fault⟩ := resolve_first_eq_error_iff.mp outcome
        cases fault with
        | programTooLarge large => exact absurd small (Nat.not_lt_of_le large)
        | duplicateLabel _ second _ first =>
            rw [second.definedNames, List.nodup_middle, List.nodup_cons, first.definedNames] at distinct
            exact absurd (by simp) distinct.1
        | statement _ _ found _ fault => exact absurd fault (faultless _ _ found _)

/-- Resolving accepts exactly the well-formed programs, and of any other it reports the first
fault alone. -/
theorem resolve_first_iff_wellFormed (program : Program) (origin : Word) :
    ((∃ resolved, program.resolve .first origin = .ok resolved) ↔ program.WellFormed origin) ∧
      ∀ errors, program.resolve .first origin = .error errors ↔
        ∃ error, errors = [error] ∧ program.FirstFault origin error :=
  ⟨exists_resolve_first_iff, fun _ => resolve_first_eq_error_iff⟩

end Program

end Asm16
