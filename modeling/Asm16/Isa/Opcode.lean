import Asm16.Isa.Field

namespace Asm16

inductive Opcode
  | alu
  | addi
  | andi
  | ori
  | lui
  | mem
  | br
  | jump
  | jal
  | sys
  deriving DecidableEq, Repr

/-- What a label stands for as an operand. -/
inductive LabelMode
  /-- The opcode takes no label. -/
  | none
  /-- The label's address. -/
  | absolute
  /-- The way from the instruction to the label. -/
  | relative
  deriving DecidableEq, Repr

/-- How an opcode uses its word. -/
structure Layout where
  name : String
  /-- The operand fields in source order. -/
  operands : List Field
  /-- The field of the function code, for an opcode that several mnemonics share. -/
  func : Option Field
  labels : LabelMode
  /-- The bits that must be zero. -/
  reserved : Word
  deriving DecidableEq, Repr

def opcodeField : Field := ⟨"opcode", 12, 4, .unsigned⟩

namespace Layout

def r1 : Field := ⟨"r1", 8, 4, .reg⟩
def r2 : Field := ⟨"r2", 4, 4, .reg⟩
def func4 : Field := ⟨"func", 0, 4, .unsigned⟩
def signedImm8 : Field := ⟨"imm8", 0, 8, .signed⟩
def unsignedImm8 : Field := ⟨"imm8", 0, 8, .unsigned⟩
def cond : Field := ⟨"cond", 7, 1, .unsigned⟩
def off7 : Field := ⟨"off7", 0, 7, .signed⟩
def addr12 : Field := ⟨"addr12", 0, 12, .unsigned⟩

/-- Every field of the word: the opcode, the function code and the operands. -/
def fields (layout : Layout) : List Field :=
  opcodeField :: (layout.func.toList ++ layout.operands)

def usedMask (layout : Layout) : Word :=
  layout.fields.foldl (fun mask field => mask ||| field.mask) 0

/-- The field of the immediate, offset or address operand. -/
def immField? (layout : Layout) : Option Field :=
  layout.operands.find? (·.kind ≠ .reg)

end Layout

namespace Opcode

open Layout in
def layout : Opcode → Layout
  | .alu => ⟨"ALU", [r1, r2], some func4, .none, 0⟩
  | .addi => ⟨"ADDI", [r1, signedImm8], none, .absolute, 0⟩
  | .andi => ⟨"ANDI", [r1, unsignedImm8], none, .absolute, 0⟩
  | .ori => ⟨"ORI", [r1, unsignedImm8], none, .absolute, 0⟩
  | .lui => ⟨"LUI", [r1, unsignedImm8], none, .absolute, 0⟩
  | .mem => ⟨"MEM", [r1, r2], some func4, .none, 0⟩
  | .br => ⟨"BR", [r1, off7], some cond, .relative, 0⟩
  | .jump => ⟨"JUMP", [addr12], none, .absolute, 0⟩
  | .jal => ⟨"JAL", [addr12], none, .absolute, 0⟩
  | .sys => ⟨"SYS", [], some func4, .none, 0x0FF0⟩

def code : Opcode → Nat
  | .alu => 0x0
  | .addi => 0x1
  | .andi => 0x2
  | .ori => 0x3
  | .lui => 0x4
  | .mem => 0x5
  | .br => 0x8
  | .jump => 0x9
  | .jal => 0xA
  | .sys => 0xF

def all : List Opcode :=
  [.alu, .addi, .andi, .ori, .lui, .mem, .br, .jump, .jal, .sys]

def title : Opcode → String
  | .alu => "Alu"
  | .addi => "Addi"
  | .andi => "Andi"
  | .ori => "Ori"
  | .lui => "Lui"
  | .mem => "Mem"
  | .br => "Br"
  | .jump => "Jump"
  | .jal => "Jal"
  | .sys => "Sys"

theorem mem_all (opcode : Opcode) : opcode ∈ all := by
  cases opcode <;> decide

theorem fields_disjoint (opcode : Opcode) :
    opcode.layout.fields.Pairwise fun left right => left.mask &&& right.mask = 0 := by
  cases opcode <;> decide

/-- The fields and the reserved bits fill the word without overlap. -/
theorem layout_tiles (opcode : Opcode) :
    opcode.layout.usedMask ||| opcode.layout.reserved = 0xFFFF ∧
      opcode.layout.usedMask &&& opcode.layout.reserved = 0 := by
  cases opcode <;> decide

end Opcode

end Asm16
