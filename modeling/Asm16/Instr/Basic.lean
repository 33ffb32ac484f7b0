import Asm16.Isa.Row

namespace Asm16

abbrev Reg := Fin 16

/-- An immediate, offset or address operand. A label is a name whose number is not known yet. -/
inductive Imm
  | value (value : Int32)
  | label (name : String)
  deriving DecidableEq, Repr

inductive ImmOp
  | addi
  | andi
  | ori
  | lui
  deriving DecidableEq, Repr

inductive Instr
  | alu (op : AluOp) (r1 r2 : Reg)
  | immediate (op : ImmOp) (rd : Reg) (imm : Imm)
  | mem (op : MemOp) (r1 r2 : Reg)
  /-- A taken branch goes to its own address plus `offset`. -/
  | branch (cond : Cond) (rs : Reg) (offset : Imm)
  | jump (target : Imm)
  /-- A jump that leaves the return address in register 15. -/
  | jal (target : Imm)
  | sys (op : SysOp)
  deriving DecidableEq, Repr

/-- A positional operand, in the order of the layout's operand fields. -/
inductive Operand
  | reg (reg : Reg)
  | imm (imm : Imm)
  deriving DecidableEq, Repr

namespace Imm

def value? : Imm → Option Int32
  | .value number => some number
  | .label _ => none

def label? : Imm → Option String
  | .value _ => none
  | .label name => some name

end Imm

def ImmOp.opcode : ImmOp → Opcode
  | .addi => .addi
  | .andi => .andi
  | .ori => .ori
  | .lui => .lui

namespace Instr

def nop : Instr := .sys .nop

def halt : Instr := .sys .halt

def opcode : Instr → Opcode
  | .alu .. => .alu
  | .immediate op _ _ => op.opcode
  | .mem .. => .mem
  | .branch .. => .br
  | .jump _ => .jump
  | .jal _ => .jal
  | .sys _ => .sys

/-- The function code, for an opcode that several mnemonics share. -/
def func? : Instr → Option Nat
  | .alu op _ _ => some op.code
  | .mem op _ _ => some op.code
  | .branch cond _ _ => some cond.code
  | .sys op => some op.code
  | .immediate .. | .jump _ | .jal _ => none

def imm? : Instr → Option Imm
  | .immediate _ _ imm => some imm
  | .branch _ _ offset => some offset
  | .jump target => some target
  | .jal target => some target
  | .alu .. | .mem .. | .sys _ => none

/-- The instruction with another immediate, if it has one at all. -/
def withImm (imm : Imm) : Instr → Instr
  | .immediate op rd _ => .immediate op rd imm
  | .branch cond rs _ => .branch cond rs imm
  | .jump _ => .jump imm
  | .jal _ => .jal imm
  | .alu op r1 r2 => .alu op r1 r2
  | .mem op r1 r2 => .mem op r1 r2
  | .sys op => .sys op

/-- The label that the instruction still waits for. -/
def label? (instr : Instr) : Option String :=
  instr.imm?.bind Imm.label?

def operands : Instr → List Operand
  | .alu _ r1 r2 => [.reg r1, .reg r2]
  | .immediate _ rd imm => [.reg rd, .imm imm]
  | .mem _ r1 r2 => [.reg r1, .reg r2]
  | .branch _ rs offset => [.reg rs, .imm offset]
  | .jump target => [.imm target]
  | .jal target => [.imm target]
  | .sys _ => []

def row (instr : Instr) : Except LookupError Row :=
  Row.ofFunction instr.opcode instr.func?

def mnemonic (instr : Instr) : String :=
  match instr.row with
  | .ok row => row.mnemonic
  | .error _ => instr.opcode.layout.name

def immField? (instr : Instr) : Option Field :=
  instr.opcode.layout.immField?

end Instr

end Asm16
