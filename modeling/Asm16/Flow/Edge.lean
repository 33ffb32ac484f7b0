import Asm16.Instr.Basic

/-!
# Edges of the control flow

Where control can go after an instruction. The address after the last word of an image need not be
a word, so the control flow counts in 32 bits. Addresses are natural numbers here. The two differ
only behind the address 2 ^ 32 - 1, where 32 bits wrap around.
-/

namespace Asm16

inductive EdgeKind
  | fallthrough
  | branch
  | condBranch
  | call
  deriving DecidableEq, Repr

structure Edge where
  source : Nat
  target : Nat
  kind : EdgeKind
  deriving DecidableEq, Repr

def EdgeKind.short : EdgeKind → String
  | .fallthrough => "ft"
  | .branch => "br"
  | .condBranch => "cbr"
  | .call => "call"

/-- The address that an absolute operand denotes, in 32 bits. -/
def absoluteTarget (value : Int32) : Nat :=
  value.toUInt32.toNat

/-- The address that an offset denotes: the address space wraps around. -/
def relativeTarget (address : Nat) (offset : Int32) : Nat :=
  ((address + offset.toInt) % addressSpace).toNat

namespace Instr

/-- The address to which the instruction's operand sends control. -/
def target? (instr : Instr) (address : Nat) : Option Nat :=
  match instr with
  | .jump target | .jal target => target.value?.map absoluteTarget
  | .branch _ _ offset => offset.value?.map (relativeTarget address)
  | .alu .. | .immediate .. | .mem .. | .sys _ => none

/-- Where control can go after the instruction at an address. -/
def successors (instr : Instr) (address : Nat) : List (Nat × EdgeKind) :=
  let transfer (kind : EdgeKind) := (instr.target? address).toList.map ((·, kind))
  let next := [(address + 1, EdgeKind.fallthrough)]
  match instr with
  | .jump _ => transfer .branch
  | .branch .. => transfer .condBranch ++ next
  | .jal _ => transfer .call ++ next
  | .sys .halt => []
  | .alu .. | .immediate .. | .mem .. | .sys .nop => next

def edges (instr : Instr) (address : Nat) : List Edge :=
  (instr.successors address).map fun successor => ⟨address, successor.1, successor.2⟩

theorem length_edges_le (instr : Instr) (address : Nat) : (instr.edges address).length ≤ 2 := by
  rw [edges, List.length_map]
  cases instr with
  | jump target => cases target <;> simp [successors, target?, Imm.value?]
  | jal target => cases target <;> simp [successors, target?, Imm.value?]
  | branch cond rs offset => cases offset <;> simp [successors, target?, Imm.value?]
  | sys op => cases op <;> simp [successors]
  | alu | immediate | mem => simp [successors]

end Instr

end Asm16
