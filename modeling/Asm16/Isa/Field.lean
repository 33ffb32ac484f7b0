import Asm16.Isa.Word

namespace Asm16

inductive FieldKind
  | reg
  | signed
  | unsigned
  deriving DecidableEq, Repr

/-- The bits `lo` to `lo + width - 1` of a word. -/
structure Field where
  name : String
  lo : Nat
  width : Nat
  kind : FieldKind
  deriving DecidableEq, Repr

namespace Field

/-- The bits of the field. A field that sticks out of the word has only the bits inside. -/
def mask (field : Field) : Word :=
  UInt16.ofNat (((1 <<< field.width) - 1) <<< field.lo)

/-- The least number of the field: a signed field is in two's complement. -/
def least (field : Field) : Int :=
  match field.kind with
  | .signed => -(1 <<< (field.width - 1) : Nat)
  | .reg | .unsigned => 0

def greatest (field : Field) : Int :=
  match field.kind with
  | .signed => (1 <<< (field.width - 1) : Nat) - 1
  | .reg | .unsigned => (1 <<< field.width : Nat) - 1

abbrev Fits (field : Field) (value : Int) : Prop :=
  field.least ≤ value ∧ value ≤ field.greatest

def extract (field : Field) (word : Word) : Int :=
  let raw := (word.toNat >>> field.lo) % (1 <<< field.width)
  match field.kind with
  | .signed => Int.bmod raw (1 <<< field.width)
  | .reg | .unsigned => raw

/-- The word whose only bits are those of `value` in the field. Of a number that does not fit,
the low bits are kept. -/
def insert (field : Field) (value : Int) : Word :=
  UInt16.ofNat ((value % (1 <<< field.width : Nat)).toNat <<< field.lo)

end Field

end Asm16
