import Asm16.Source.Parser
import Asm16.Symbol

/-!
# Resolving labels

Two passes give every instruction its address and every label its number. The first binds each
label to the address of the instruction after it, so that the second finds labels defined before
and after their use alike.
-/

namespace Asm16

inductive ResolveError
  | duplicateLabel (duplicate : DuplicateLabel)
  | undefinedLabel (name : String) (address : Word) (lineNo : Nat) (line : String)
  /-- A number that its field cannot hold, with the label it came from. -/
  | overflow (value least greatest : Int) (address : Word) (lineNo : Nat) (label : Option String)
  | programTooLarge (size : Nat) (origin : Word)
  deriving DecidableEq, Repr

def ResolveError.labelNote : Option String → String
  | none => ""
  | some name => s!" (label `{name}`)"

def ResolveError.message : ResolveError → String
  | .duplicateLabel ⟨name, lineNo, firstLineNo⟩ =>
      s!"line {lineNo}: label `{name}` already defined on line {firstLineNo}"
  | .undefinedLabel name address lineNo line =>
      let place := Numeral.wordHex address.toNat
      s!"line {lineNo}: undefined label `{name}` referenced at {place} in `{line}`"
  | .overflow value least greatest address lineNo label =>
      let place := Numeral.wordHex address.toNat
      let note := labelNote label
      s!"line {lineNo}: value {value} at {place} does not fit {least}..={greatest}{note}"
  | .programTooLarge size origin =>
      let place := Numeral.wordHex origin.toNat
      s!"program of {size} instruction(s) at origin {place} exceeds the 16-bit address space"

/-- An instruction without labels, at its address. -/
structure Resolved where
  address : Word
  instr : Instr
  lineNo : Nat
  line : String
  deriving DecidableEq, Repr

/-- One label or instruction of the first pass: the address of what follows, and the labels bound
so far, the last one first. -/
def bindItem (state : Word × List Symbol) : Item → Word × List Symbol
  | .label name lineNo => (state.1, ⟨name, state.1, lineNo⟩ :: state.2)
  | .stmt _ => (state.1 + 1, state.2)

def LabelMode.number (mode : LabelMode) (label address : Word) : Int :=
  match mode with
  | .relative => (label.toNat : Int) - address.toNat
  | .absolute | .none => label.toNat

/-- The number that an immediate stands for at an address, or the label that the table lacks. -/
def Imm.number (table : SymbolTable) (mode : LabelMode) (address : Word) :
    Imm → Except String Int
  | .value number => .ok number.toInt
  | .label name =>
      match table.lookup? name with
      | some symbol => .ok (mode.number symbol.address address)
      | none => .error name

/-- Puts a number in place of the statement's label and checks that its field can hold it. -/
def Statement.resolve (table : SymbolTable) (stmt : Statement) (address : Word) :
    Except ResolveError Resolved :=
  match stmt.instr.immField?, stmt.instr.imm? with
  | some field, some imm =>
      match imm.number table stmt.instr.opcode.layout.labels address with
      | .error name => .error (.undefinedLabel name address stmt.lineNo stmt.line)
      | .ok number =>
          if field.Fits number then
            let instr := stmt.instr.withImm (.value (Int32.ofInt number))
            .ok ⟨address, instr, stmt.lineNo, stmt.line⟩
          else
            .error (.overflow number field.least field.greatest address stmt.lineNo imm.label?)
  | _, _ => .ok ⟨address, stmt.instr, stmt.lineNo, stmt.line⟩

namespace Program

/-- The labels in order, each with the address of the instruction after it. -/
def labels (program : Program) (origin : Word) : List Symbol :=
  (program.items.foldl bindItem (origin, [])).2.reverse

def placed (program : Program) (origin : Word) : List (Statement × Word) :=
  program.statements.zipIdx.map fun pair => (pair.1, origin + UInt16.ofNat pair.2)

/-- The first pass. The address after the last instruction must have sixteen bits too. -/
def symbols (program : Program) (reporting : Reporting) (origin : Word) :
    Except (List ResolveError) SymbolTable :=
  if origin.toNat + program.size < addressSpace then
    let labels := program.labels origin
    match reporting with
    | .first => (SymbolTable.empty.defineEach labels).mapError ([.duplicateLabel ·])
    | .all => (SymbolTable.empty.defineAll labels).mapError (·.map .duplicateLabel)
  else .error [.programTooLarge program.size origin]

/-- The second pass. -/
def substitute (program : Program) (reporting : Reporting) (origin : Word) (table : SymbolTable) :
    Except (List ResolveError) (List Resolved) :=
  reporting.traverse (fun pair => pair.1.resolve table pair.2) (program.placed origin)

def resolve (program : Program) (reporting : Reporting) (origin : Word) :
    Except (List ResolveError) (List Resolved) := do
  let table ← program.symbols reporting origin
  program.substitute reporting origin table

end Program

end Asm16
