namespace Asm16

/-- `r1 := r1 op r2`. -/
inductive AluOp
  | and
  | or
  | xor
  | add
  | sub
  | slt
  | sll
  | srl
  | sra
  deriving DecidableEq, Repr

/-- A load takes `r1` from the address in `r2`, and a store puts it there. -/
inductive MemOp
  | load
  | store
  deriving DecidableEq, Repr

/-- When a branch is taken. -/
inductive Cond
  | zero
  | nonzero
  deriving DecidableEq, Repr

inductive SysOp
  | nop
  | halt
  deriving DecidableEq, Repr

namespace AluOp

def all : List AluOp := [.and, .or, .xor, .add, .sub, .slt, .sll, .srl, .sra]

def code : AluOp → Nat
  | .and => 1
  | .or => 2
  | .xor => 3
  | .add => 4
  | .sub => 5
  | .slt => 6
  | .sll => 7
  | .srl => 8
  | .sra => 9

def mnemonic : AluOp → String
  | .and => "AND"
  | .or => "OR"
  | .xor => "XOR"
  | .add => "ADD"
  | .sub => "SUB"
  | .slt => "SLT"
  | .sll => "SLL"
  | .srl => "SRL"
  | .sra => "SRA"

def ofCode? (code : Nat) : Option AluOp := all.find? (·.code = code)

end AluOp

namespace MemOp

def all : List MemOp := [.load, .store]

def code : MemOp → Nat
  | .load => 0
  | .store => 1

def mnemonic : MemOp → String
  | .load => "LW"
  | .store => "SW"

def ofCode? (code : Nat) : Option MemOp := all.find? (·.code = code)

end MemOp

namespace Cond

def all : List Cond := [.zero, .nonzero]

def code : Cond → Nat
  | .zero => 0
  | .nonzero => 1

def mnemonic : Cond → String
  | .zero => "BEQZ"
  | .nonzero => "BNEZ"

def ofCode? (code : Nat) : Option Cond := all.find? (·.code = code)

end Cond

namespace SysOp

def all : List SysOp := [.nop, .halt]

def code : SysOp → Nat
  | .nop => 0
  | .halt => 1

def mnemonic : SysOp → String
  | .nop => "NOP"
  | .halt => "HALT"

def ofCode? (code : Nat) : Option SysOp := all.find? (·.code = code)

end SysOp

end Asm16
