import Asm16.Instr.Basic

namespace Asm16

/-- An instruction and where it stands. Lines count from one, and `line` is the whole line. -/
structure Statement where
  instr : Instr
  lineNo : Nat
  line : String
  deriving DecidableEq, Repr

inductive Item
  | label (name : String) (lineNo : Nat)
  | stmt (stmt : Statement)
  deriving DecidableEq, Repr

structure Program where
  items : List Item
  deriving DecidableEq, Repr

def Item.stmt? : Item → Option Statement
  | .label .. => none
  | .stmt s => some s

namespace Program

def statements (program : Program) : List Statement :=
  program.items.filterMap Item.stmt?

/-- The number of instructions, which is the number of words the program takes. -/
def size (program : Program) : Nat :=
  program.statements.length

end Program

end Asm16
