import Mathlib.Logic.Equiv.Basic
import Asm16.Proofs.ReportingModes
import Asm16.Proofs.Resolution

namespace Asm16

/-- Another name for each label, and another number and text for each line. -/
structure Relabeling where
  name : String → String
  injective : Function.Injective name
  lineNo : Nat → Nat
  line : String → String

section

variable (change : Relabeling)

def Imm.relabel : Imm → Imm
  | .value number => .value number
  | .label name => .label (change.name name)

def Instr.relabel (instr : Instr) : Instr :=
  match instr.imm? with
  | some imm => instr.withImm (imm.relabel change)
  | none => instr

def Statement.relabel (stmt : Statement) : Statement :=
  ⟨stmt.instr.relabel change, change.lineNo stmt.lineNo, change.line stmt.line⟩

def Item.relabel : Item → Item
  | .label name lineNo => .label (change.name name) (change.lineNo lineNo)
  | .stmt s => .stmt (s.relabel change)

def Program.relabel (program : Program) : Program :=
  ⟨program.items.map (Item.relabel change)⟩

def Symbol.relabel (symbol : Symbol) : Symbol :=
  ⟨change.name symbol.name, symbol.address, change.lineNo symbol.lineNo⟩

def DuplicateLabel.relabel (duplicate : DuplicateLabel) : DuplicateLabel :=
  ⟨change.name duplicate.name, change.lineNo duplicate.lineNo, change.lineNo duplicate.firstLineNo⟩

def ResolveError.relabel : ResolveError → ResolveError
  | .duplicateLabel duplicate => .duplicateLabel (duplicate.relabel change)
  | .undefinedLabel name address lineNo line =>
      .undefinedLabel (change.name name) address (change.lineNo lineNo) (change.line line)
  | .overflow value least greatest address lineNo label =>
      .overflow value least greatest address (change.lineNo lineNo) (label.map change.name)
  | .programTooLarge size origin => .programTooLarge size origin

/-- A resolved instruction has no labels left to rename. -/
def Resolved.relabel (result : Resolved) : Resolved :=
  ⟨result.address, result.instr, change.lineNo result.lineNo, change.line result.line⟩

end

section

variable {ε δ ι κ α β γ ν : Type}

/-- Related values, or an error and what becomes of it. -/
inductive Carries (wrap : ε → δ) (related : α → β → Prop) : Except ε α → Except δ β → Prop
  | ok {value : α} {image : β} (holds : related value image) : Carries wrap related (.ok value) (.ok image)
  | error (error : ε) : Carries wrap related (.error error) (.error (wrap error))

variable {wrap : ε → δ} {related : α → β → Prop} {left : Except ε α} {right : Except δ β}

theorem Carries.bind {next : α → Except ε γ} {other : β → Except δ ν} {later : γ → ν → Prop}
    (carries : Carries wrap related left right)
    (goOn : ∀ value image, left = .ok value → right = .ok image → related value image →
      Carries wrap later (next value) (other image)) :
    Carries wrap later (left >>= next) (right >>= other) := by
  cases carries with
  | ok holds => exact goOn _ _ rfl rfl holds
  | error error => exact .error error

theorem Carries.of_eq {f : α → β} (same : right = (left.map f).mapError wrap) :
    Carries wrap (fun value image => image = f value) left right := by
  subst same
  cases left with
  | ok value => exact .ok rfl
  | error error => exact .error error

theorem Carries.mapError {above : ε → ι} {beyond : δ → κ} {outer : ι → κ}
    (carries : Carries wrap related left right) (commutes : ∀ error, beyond (wrap error) = outer (above error)) :
    Carries outer related (left.mapError above) (right.mapError beyond) := by
  cases carries with
  | ok holds => exact .ok holds
  | error error =>
      simp only [Except.mapError, commutes]
      exact .error (above error)

section

variable {f : α → Except ε β} {g : γ → Except δ ν} {input : α → γ} {output : β → ν} {inputs : List α}

theorem Reporting.further_map_eq (reporting : Reporting)
    (commutes : ∀ part ∈ inputs, g (input part) = ((f part).map output).mapError wrap) :
    reporting.further g (inputs.map input) = (reporting.further f inputs).map wrap := by
  cases reporting with
  | first => rfl
  | all =>
      rw [further, further, List.map_map, List.filterMap_map, List.filterMap_map, List.map_filterMap]
      refine List.filterMap_congr fun part member => ?_
      rw [Function.comp_apply, Function.comp_apply, commutes part member, Function.comp_apply]
      cases f part <;> rfl

/-- A stage that treats the images of its parts as it treats the parts does so with the whole. -/
theorem Reporting.traverse_map_eq (reporting : Reporting)
    (commutes : ∀ part ∈ inputs, g (input part) = ((f part).map output).mapError wrap) :
    reporting.traverse g (inputs.map input) =
      ((reporting.traverse f inputs).map (·.map output)).mapError (·.map wrap) := by
  induction inputs with
  | nil =>
      rw [List.map_nil, reporting.traverse_nil, reporting.traverse_nil]
      rfl
  | cons part rest ih =>
      obtain ⟨same, later⟩ := List.forall_mem_cons.mp commutes
      rw [List.map_cons]
      cases outcome : f part with
      | ok value =>
          rw [outcome] at same
          rw [reporting.traverse_cons_ok same, reporting.traverse_cons_ok outcome, ih later]
          cases reporting.traverse f rest <;> rfl
      | error error =>
          rw [outcome] at same
          rw [reporting.traverse_cons_error same, reporting.traverse_cons_error outcome,
            reporting.further_map_eq later]
          rfl

end

end

variable {change : Relabeling}

namespace SymbolTable

variable {table other : SymbolTable}

/-- The other table binds the new names as this one binds the old. -/
def Relabels (change : Relabeling) (table other : SymbolTable) : Prop :=
  ∀ name, other.lookup? (change.name name) = (table.lookup? name).map (Symbol.relabel change)

theorem empty_relabels : empty.Relabels change empty := by
  intro name
  simp [lookup?, empty]

theorem Relabels.define (relabels : table.Relabels change other) (symbol : Symbol) :
    Carries (DuplicateLabel.relabel change) (Relabels change) (table.define symbol)
      (other.define (symbol.relabel change)) := by
  have known : other.lookup? (symbol.relabel change).name =
      (table.lookup? symbol.name).map (Symbol.relabel change) := relabels symbol.name
  unfold SymbolTable.define
  rw [known]
  cases table.lookup? symbol.name with
  | some first => exact .error (DuplicateLabel.mk symbol.name symbol.lineNo first.lineNo)
  | none =>
      refine .ok fun name => ?_
      have old := relabels name
      simp only [lookup?] at old ⊢
      by_cases same : symbol.name = name
      · subst same
        simp [Symbol.relabel]
      · have different : change.name symbol.name ≠ change.name name := change.injective.ne same
        simp [Std.TreeMap.getElem?_insert, Symbol.relabel, same, different, old]

theorem Relabels.defineEach (relabels : table.Relabels change other) (symbols : List Symbol) :
    Carries (DuplicateLabel.relabel change) (Relabels change) (table.defineEach symbols)
      (other.defineEach (symbols.map (Symbol.relabel change))) := by
  induction symbols generalizing table other with
  | nil => exact .ok relabels
  | cons symbol rest ih =>
      rw [List.map_cons, SymbolTable.defineEach, SymbolTable.defineEach, List.foldlM_cons, List.foldlM_cons]
      exact (relabels.define symbol).bind fun _ _ _ _ extended => ih extended

theorem Relabels.foldl_defineNoting (relabels : table.Relabels change other) (symbols : List Symbol)
    (noted : List DuplicateLabel) :
    let state := symbols.foldl defineNoting (table, noted)
    let image := (symbols.map (Symbol.relabel change)).foldl defineNoting
      (other, noted.map (DuplicateLabel.relabel change))
    state.1.Relabels change image.1 ∧ image.2 = state.2.map (DuplicateLabel.relabel change) := by
  induction symbols generalizing table other noted with
  | nil => exact ⟨relabels, rfl⟩
  | cons symbol rest ih =>
      have step := relabels.define symbol
      simp only [List.map_cons, List.foldl_cons, defineNoting]
      generalize table.define symbol = outcome at step ⊢
      generalize other.define (symbol.relabel change) = image at step ⊢
      cases step with
      | ok extended => exact ih extended noted
      | error duplicate => exact ih relabels (duplicate :: noted)

theorem Relabels.defineAll (relabels : table.Relabels change other) (symbols : List Symbol) :
    Carries (List.map (DuplicateLabel.relabel change)) (Relabels change) (table.defineAll symbols)
      (other.defineAll (symbols.map (Symbol.relabel change))) := by
  obtain ⟨final, noting⟩ := relabels.foldl_defineNoting symbols []
  simp only [List.map_nil] at final noting
  simp only [SymbolTable.defineAll, noting, List.isEmpty_map]
  split
  · exact .ok final
  · rw [← List.map_reverse]
    exact .error _

end SymbolTable

theorem symbolsFrom_relabel (address : Word) (items : List Item) :
    symbolsFrom address (items.map (Item.relabel change)) =
      (symbolsFrom address items).map (Symbol.relabel change) := by
  induction items generalizing address with
  | nil => rfl
  | cons item rest ih =>
      cases item with
      | label name lineNo =>
          simp only [List.map_cons, Item.relabel, symbolsFrom, ih]
          rfl
      | stmt stmt => simp only [List.map_cons, Item.relabel, symbolsFrom, ih]

namespace Program

theorem statements_relabel (program : Program) :
    (program.relabel change).statements = program.statements.map (Statement.relabel change) := by
  rw [statements, relabel, List.filterMap_map, statements, List.map_filterMap]
  congr 1
  funext item
  cases item <;> rfl

theorem size_relabel (program : Program) : (program.relabel change).size = program.size := by
  rw [size, statements_relabel, List.length_map, size]

theorem labels_relabel (program : Program) (origin : Word) :
    (program.relabel change).labels origin = (program.labels origin).map (Symbol.relabel change) := by
  rw [labels_eq_symbolsFrom, relabel, symbolsFrom_relabel, labels_eq_symbolsFrom]

theorem symbols_relabel (program : Program) (reporting : Reporting) (origin : Word) :
    Carries (List.map (ResolveError.relabel change)) (SymbolTable.Relabels change)
      (program.symbols reporting origin) ((program.relabel change).symbols reporting origin) := by
  have empty := @SymbolTable.empty_relabels change
  unfold symbols
  rw [size_relabel, labels_relabel]
  split
  · cases reporting with
    | first => exact (empty.defineEach _).mapError fun _ => rfl
    | all =>
        refine (empty.defineAll _).mapError fun duplicates => ?_
        rw [List.map_map, List.map_map]
        rfl
  · exact .error [ResolveError.programTooLarge program.size origin]

theorem placed_relabel (program : Program) (origin : Word) :
    (program.relabel change).placed origin =
      (program.placed origin).map fun pair => (pair.1.relabel change, pair.2) := by
  rw [placed, statements_relabel, List.zipIdx_map, List.map_map, placed, List.map_map]
  rfl

end Program

namespace Instr

variable (instr : Instr)

theorem imm?_relabel : (instr.relabel change).imm? = instr.imm?.map (Imm.relabel change) := by
  cases instr <;> rfl

theorem opcode_relabel : (instr.relabel change).opcode = instr.opcode := by
  cases instr <;> rfl

theorem immField?_relabel : (instr.relabel change).immField? = instr.immField? := by
  rw [immField?, opcode_relabel, immField?]

theorem withImm_relabel (imm : Imm) : (instr.relabel change).withImm imm = instr.withImm imm := by
  cases instr <;> rfl

theorem relabel_of_imm?_none {instr : Instr} (absent : instr.imm? = none) :
    instr.relabel change = instr := by
  rw [relabel, absent]

end Instr

section

variable {table other : SymbolTable} (relabels : table.Relabels change other)
include relabels

theorem Imm.number_relabel (imm : Imm) (mode : LabelMode) (address : Word) :
    (imm.relabel change).number other mode address =
      (imm.number table mode address).mapError change.name := by
  cases imm with
  | value number => rfl
  | label name =>
      rw [Imm.relabel, Imm.number, relabels name, Imm.number]
      cases table.lookup? name <;> rfl

theorem Statement.resolve_relabel (stmt : Statement) (address : Word) :
    (stmt.relabel change).resolve other address =
      ((stmt.resolve table address).map (Resolved.relabel change)).mapError (ResolveError.relabel change) := by
  have slots : (stmt.relabel change).instr.immField? = stmt.instr.immField? := stmt.instr.immField?_relabel
  have imms : (stmt.relabel change).instr.imm? = stmt.instr.imm?.map (Imm.relabel change) :=
    stmt.instr.imm?_relabel
  have opcodes : (stmt.relabel change).instr.opcode = stmt.instr.opcode := stmt.instr.opcode_relabel
  have filled (imm : Imm) : (stmt.relabel change).instr.withImm imm = stmt.instr.withImm imm :=
    stmt.instr.withImm_relabel imm
  cases present : stmt.instr.imm? with
  | none =>
      have same : (stmt.relabel change).instr = stmt.instr := Instr.relabel_of_imm?_none present
      simp only [Statement.resolve, same, present]
      cases stmt.instr.immField? <;> rfl
  | some imm =>
      obtain ⟨field, slot⟩ := Instr.exists_immField present
      simp only [Statement.resolve, slots, imms, opcodes, filled, slot, present, Option.map_some,
        imm.number_relabel relabels]
      cases imm.number table stmt.instr.opcode.layout.labels address with
      | error name => rfl
      | ok number =>
          by_cases fits : field.Fits number
          · simp only [Except.mapError, if_pos fits]
            rfl
          · simp only [Except.mapError, if_neg fits]
            cases imm <;> rfl

theorem Program.substitute_relabel (program : Program) (reporting : Reporting) (origin : Word) :
    (program.relabel change).substitute reporting origin other =
      ((program.substitute reporting origin table).map (·.map (Resolved.relabel change))).mapError
        (·.map (ResolveError.relabel change)) := by
  rw [substitute, placed_relabel, substitute]
  exact reporting.traverse_map_eq fun pair _ => pair.1.resolve_relabel relabels pair.2

end

theorem Program.resolve_relabel (program : Program) (reporting : Reporting) (origin : Word) :
    (program.relabel change).resolve reporting origin =
      ((program.resolve reporting origin).map (·.map (Resolved.relabel change))).mapError
        (·.map (ResolveError.relabel change)) := by
  have tables := @symbols_relabel change program reporting origin
  unfold resolve
  generalize program.symbols reporting origin = outcome at tables ⊢
  generalize (program.relabel change).symbols reporting origin = image at tables ⊢
  cases tables with
  | ok relabels => exact program.substitute_relabel relabels reporting origin
  | error errors => rfl

/-- New names for the labels. Line numbers and the text of lines stay. -/
def Relabeling.ofNames (name : String → String) (injective : Function.Injective name) : Relabeling :=
  ⟨name, injective, id, id⟩

/-- The names of labels do not matter: under other names, a program resolves to the same
statements, or fails with the same errors about the new names. -/
theorem Program.resolve_under_new_names {name : String → String} (injective : Function.Injective name)
    (program : Program) (reporting : Reporting) (origin : Word) :
    (program.relabel (.ofNames name injective)).resolve reporting origin =
      (program.resolve reporting origin).mapError (·.map (ResolveError.relabel (.ofNames name injective))) := by
  have kept : Resolved.relabel (.ofNames name injective) = id := rfl
  rw [resolve_relabel, kept]
  cases program.resolve reporting origin with
  | ok statements => exact congrArg Except.ok (List.map_id statements)
  | error errors => rfl

/-- Two labels exchange their names, and now it is the other one that has no definition. -/
theorem Program.resolve_under_exchanged_names :
    let program : Program := ⟨[.label "loop" 1, .stmt ⟨.jump (.label "done"), 2, "JUMP, done"⟩,
      .stmt ⟨.branch .nonzero 1 (.label "loop"), 3, "BNEZ, $r1, loop"⟩]⟩
    let exchange := Equiv.swap "loop" "done"
    Function.Injective exchange ∧
      program.resolve .all 32 = .error [.undefinedLabel "done" 32 2 "JUMP, done"] ∧
      (program.relabel (.ofNames exchange exchange.injective)).resolve .all 32 =
        .error [.undefinedLabel "loop" 32 2 "JUMP, done"] := by
  intro program exchange
  have fails : program.resolve .all 32 = .error [.undefinedLabel "done" 32 2 "JUMP, done"] := by
    decide +kernel
  refine ⟨exchange.injective, fails, ?_⟩
  rw [resolve_under_new_names exchange.injective, fails]
  rfl

end Asm16
