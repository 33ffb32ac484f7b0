import Asm16.Instr.Basic

namespace Asm16

inductive OperandKind
  | register
  | immediate
  deriving DecidableEq, Repr

def OperandKind.message : OperandKind → String
  | .register => "a register"
  | .immediate => "an immediate or label"

inductive BuildError
  | registerOutOfRange (index : Int)
  | immediateOutOfRange (value least greatest : Int)
  | operandCount (mnemonic : String) (expected found : Nat)
  | operandKind (mnemonic : String) (index : Nat) (expected : OperandKind)
  | lookup (error : LookupError)
  deriving DecidableEq, Repr

def BuildError.message : BuildError → String
  | .registerOutOfRange index => s!"register index {index} out of range (expected 0..16)"
  | .immediateOutOfRange value least greatest =>
      s!"immediate {value} out of range {least}..={greatest}"
  | .operandCount mnemonic expected found =>
      s!"{mnemonic} takes {expected} operand(s), found {found}"
  | .operandKind mnemonic index expected =>
      s!"{mnemonic}: operand {index} must be {expected.message}"
  | .lookup error => error.message

def Reg.ofIndex (index : Int) : Except BuildError Reg :=
  if bound : 0 ≤ index ∧ index < 16 then .ok ⟨index.toNat, by omega⟩
  else .error (.registerOutOfRange index)

namespace Row

def select {α : Type} (row : Row) (ofCode? : Nat → Option α) : Except BuildError α :=
  match row.func with
  | none => .error (.lookup (.unknownFunction row.opcode 0))
  | some code =>
      match ofCode? code with
      | none => .error (.lookup (.unknownFunction row.opcode code))
      | some function => .ok function

def regAt (row : Row) (operands : List Operand) (index : Nat) : Except BuildError Reg :=
  match operands[index]? with
  | some (.reg reg) => .ok reg
  | _ => .error (.operandKind row.mnemonic index .register)

def immAt (row : Row) (operands : List Operand) (index : Nat) : Except BuildError Imm :=
  match operands[index]? with
  | some (.imm imm) => .ok imm
  | _ => .error (.operandKind row.mnemonic index .immediate)

end Row

namespace Instr

def immOfOperands (op : ImmOp) (row : Row) (operands : List Operand) : Except BuildError Instr := do
  let rd ← row.regAt operands 0
  let imm ← row.immAt operands 1
  return .immediate op rd imm

/-- The instruction that a row makes of positional operands. Their number is checked first, then
the function code, then the operands in order. -/
def ofOperands (row : Row) (operands : List Operand) : Except BuildError Instr :=
  let expected := row.opcode.layout.operands.length
  if operands.length = expected then
    match row.opcode with
    | .alu => do
        let op ← row.select AluOp.ofCode?
        let r1 ← row.regAt operands 0
        let r2 ← row.regAt operands 1
        return .alu op r1 r2
    | .addi => immOfOperands .addi row operands
    | .andi => immOfOperands .andi row operands
    | .ori => immOfOperands .ori row operands
    | .lui => immOfOperands .lui row operands
    | .mem => do
        let op ← row.select MemOp.ofCode?
        let r1 ← row.regAt operands 0
        let r2 ← row.regAt operands 1
        return .mem op r1 r2
    | .br => do
        let cond ← row.select Cond.ofCode?
        let rs ← row.regAt operands 0
        let offset ← row.immAt operands 1
        return .branch cond rs offset
    | .jump => do
        let target ← row.immAt operands 0
        return .jump target
    | .jal => do
        let target ← row.immAt operands 0
        return .jal target
    | .sys => do
        let op ← row.select SysOp.ofCode?
        return .sys op
  else .error (.operandCount row.mnemonic expected operands.length)

/-- Refuses a number that the instruction's immediate field cannot hold. -/
def checked (instr : Instr) : Except BuildError Instr :=
  match instr.immField?, instr.imm?.bind Imm.value? with
  | some field, some value =>
      if field.Fits value.toInt then .ok instr
      else .error (.immediateOutOfRange value.toInt field.least field.greatest)
  | _, _ => .ok instr

def ofAlu (op : AluOp) (r1 r2 : Int) : Except BuildError Instr := do
  let r1 ← Reg.ofIndex r1
  let r2 ← Reg.ofIndex r2
  return .alu op r1 r2

def ofMem (op : MemOp) (r1 r2 : Int) : Except BuildError Instr := do
  let r1 ← Reg.ofIndex r1
  let r2 ← Reg.ofIndex r2
  return .mem op r1 r2

def ofImm (op : ImmOp) (rd : Int) (imm : Int32) : Except BuildError Instr := do
  -- a bad register is reported before a bad immediate
  let rd ← Reg.ofIndex rd
  checked (.immediate op rd (.value imm))

def ofBranch (cond : Cond) (rs : Int) (offset : Int32) : Except BuildError Instr := do
  let rs ← Reg.ofIndex rs
  checked (.branch cond rs (.value offset))

def ofJump (target : Int32) : Except BuildError Instr :=
  checked (.jump (.value target))

def ofJal (target : Int32) : Except BuildError Instr :=
  checked (.jal (.value target))

end Instr

end Asm16
