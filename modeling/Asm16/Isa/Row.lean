import Asm16.Isa.Opcode
import Asm16.Isa.Function
import Asm16.Text.Numeral

namespace Asm16

structure Row where
  mnemonic : String
  opcode : Opcode
  /-- The function code, if the opcode has a field for it. -/
  func : Option Nat
  deriving DecidableEq, Repr

inductive LookupError
  | unknownMnemonic (mnemonic : String)
  | unknownOpcode (code : Nat)
  | unknownFunction (opcode : Opcode) (code : Nat)
  deriving DecidableEq, Repr

def LookupError.message : LookupError → String
  | .unknownMnemonic mnemonic => s!"unknown mnemonic `{mnemonic}`"
  | .unknownOpcode code => s!"unknown opcode {Numeral.shortHex code}"
  | .unknownFunction opcode code =>
      s!"unknown function code {Numeral.shortHex code} for opcode {opcode.title}"

namespace Row

def all : List Row :=
  AluOp.all.map (fun op => ⟨op.mnemonic, .alu, some op.code⟩) ++
    [⟨"ADDI", .addi, none⟩, ⟨"ANDI", .andi, none⟩, ⟨"ORI", .ori, none⟩, ⟨"LUI", .lui, none⟩] ++
    MemOp.all.map (fun op => ⟨op.mnemonic, .mem, some op.code⟩) ++
    Cond.all.map (fun cond => ⟨cond.mnemonic, .br, some cond.code⟩) ++
    [⟨"JUMP", .jump, none⟩, ⟨"JAL", .jal, none⟩] ++
    SysOp.all.map (fun op => ⟨op.mnemonic, .sys, some op.code⟩)

/-- Equality of mnemonics: the case of ASCII letters does not count. -/
def sameMnemonic (left right : String) : Bool :=
  left.toList.map Char.toLower == right.toList.map Char.toLower

def ofMnemonic (mnemonic : String) : Except LookupError Row :=
  match all.find? fun row => sameMnemonic row.mnemonic mnemonic with
  | some row => .ok row
  | none => .error (.unknownMnemonic mnemonic)

/-- The row of an opcode and a function code. Both a code that no row has and a code where none
belongs are refused. -/
def ofFunction (opcode : Opcode) (func : Option Nat) : Except LookupError Row :=
  match all.find? fun row => row.opcode = opcode ∧ row.func = func with
  | some row => .ok row
  | none => .error (.unknownFunction opcode (func.getD 0))

theorem all_mnemonics_distinct :
    all.Pairwise fun left right => sameMnemonic left.mnemonic right.mnemonic = false := by
  decide

theorem all_encodings_distinct :
    all.Pairwise fun left right => (left.opcode, left.func) ≠ (right.opcode, right.func) := by
  decide

/-- A row has a function code exactly if its opcode has a field for one, and the code fits. -/
theorem all_functions_fit :
    ∀ row ∈ all, row.opcode.layout.func.isSome = row.func.isSome ∧
      ∀ field ∈ row.opcode.layout.func, ∀ code ∈ row.func, field.Fits code := by
  decide

end Row

def Opcode.ofCode (code : Nat) : Except LookupError Opcode :=
  match Opcode.all.find? (·.code = code) with
  | some opcode => .ok opcode
  | none => .error (.unknownOpcode code)

end Asm16
