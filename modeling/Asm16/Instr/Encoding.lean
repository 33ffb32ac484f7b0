import Asm16.Instr.Build

namespace Asm16

inductive EncodeError
  | unresolvedLabel (label : String)
  | unsupported (opcode : Opcode) (func : Option Nat)
  | overflow (field : String) (value least greatest : Int)
  deriving DecidableEq, Repr

/-- The written form of a function code that may be missing. -/
def EncodeError.funcText : Option Nat → String
  | none => "None"
  | some code => s!"Some({code})"

def EncodeError.message : EncodeError → String
  | .unresolvedLabel label => s!"unresolved label `{label}` reached the encoder"
  | .unsupported opcode func =>
      s!"no encoding for opcode {opcode.title} with function code {funcText func}"
  | .overflow field value least greatest =>
      s!"{field} value {value} out of range {least}..={greatest}"

inductive DecodeCause
  | lookup (error : LookupError)
  | reservedBits (opcode : Opcode)
  | build (error : BuildError)
  deriving DecidableEq, Repr

structure DecodeError where
  word : Word
  cause : DecodeCause
  deriving DecidableEq, Repr

def DecodeCause.message : DecodeCause → String
  | .lookup error => error.message
  | .reservedBits opcode => s!"reserved bits set for {opcode.layout.name}"
  | .build error => error.message

def DecodeError.message (error : DecodeError) : String :=
  s!"unknown encoding {Numeral.wordHex error.word.toNat}: {error.cause.message}"

/-- The word of one field, for a number that fits. -/
def Field.place (field : Field) (value : Int) : Except EncodeError Word :=
  if field.Fits value then .ok (field.insert value)
  else .error (.overflow field.name value field.least field.greatest)

def Operand.number : Operand → Except EncodeError Int
  | .reg r => .ok r.val
  | .imm (.value value) => .ok value.toInt
  | .imm (.label label) => .error (.unresolvedLabel label)

def Field.operand (field : Field) (word : Word) : Except BuildError Operand :=
  match field.kind with
  | .reg => (Reg.ofIndex (field.extract word)).map .reg
  | .signed | .unsigned => .ok (.imm (.value (Int32.ofInt (field.extract word))))

/-- The opcode and function code of a row, in place. -/
def Row.head (row : Row) : Word :=
  opcodeField.insert row.opcode.code |||
    match row.opcode.layout.func, row.func with
    | some field, some code => field.insert code
    | _, _ => 0

def encode (instr : Instr) : Except EncodeError Word :=
  match instr.label? with
  | some label => .error (.unresolvedLabel label)
  | none =>
      match instr.row with
      | .error _ => .error (.unsupported instr.opcode instr.func?)
      | .ok row => do
          let placed ← (row.opcode.layout.operands.zip instr.operands).mapM fun pair => do
            let number ← pair.2.number
            pair.1.place number
          return placed.foldl (· ||| ·) row.head

/-- The instruction of a word, or what is wrong with the word: first its opcode, then its reserved
bits, then its function code, then its operands. -/
def decodeWord (word : Word) : Except DecodeCause Instr := do
  let opcode ← (Opcode.ofCode (opcodeField.extract word).toNat).mapError .lookup
  if word &&& opcode.layout.reserved = 0 then
    let func := opcode.layout.func.map fun field => (field.extract word).toNat
    let row ← (Row.ofFunction opcode func).mapError .lookup
    let operands ← (opcode.layout.operands.mapM fun field : Field => field.operand word).mapError .build
    (Instr.ofOperands row operands).mapError .build
  else .error (.reservedBits opcode)

def decode (word : Word) : Except DecodeError Instr :=
  (decodeWord word).mapError (⟨word, ·⟩)

end Asm16
