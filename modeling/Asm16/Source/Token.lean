import Asm16.Instr.Printer

namespace Asm16

inductive ParseCause
  | missingComma
  | operandCount (mnemonic : String) (expected found : Nat)
  | build (error : BuildError)
  | unknownMnemonic (mnemonic : String)
  | malformedRegister (token : String)
  | registerOutOfRange (index : Int)
  | malformedImmediate (token : String)
  | malformedLabel (name : String)
  deriving DecidableEq, Repr

namespace Token

def startsIdentifier (c : Char) : Bool :=
  c.isAlpha || c == '_' || c == '.'

def continuesIdentifier (c : Char) : Bool :=
  c.isAlphanum || c == '_' || c == '.'

def isIdentifier : List Char → Bool
  | [] => false
  | c :: rest => startsIdentifier c && rest.all continuesIdentifier

def afterRegisterMark? : List Char → Option (List Char)
  | '$' :: 'r' :: number => some number
  | _ => none

/-- Reads a register. A number of any length is a number: one that is too long for 64 bits is
reported as the nearest that is not. -/
def readReg (token : List Char) : Except ParseCause Reg :=
  match (afterRegisterMark? token).bind Numeral.decimal? with
  | none => .error (.malformedRegister (String.ofList token))
  | some number =>
      let index := Numeral.clamp Int64.minValue.toInt Int64.maxValue.toInt number
      (Reg.ofIndex index).mapError fun _ => .registerOutOfRange index

/-- Reads a number or a label. A number outside 32 bits becomes the nearest inside, which no field
can hold either. -/
def readImm (token : List Char) : Except ParseCause Imm :=
  match Numeral.decimal? token with
  | some number =>
      .ok (.value (Int32.ofInt (Numeral.clamp Int32.minValue.toInt Int32.maxValue.toInt number)))
  | none =>
      if isIdentifier token then .ok (.label (String.ofList token))
      else .error (.malformedImmediate (String.ofList token))

end Token

def Field.readOperand (field : Field) (token : List Char) : Except ParseCause Operand :=
  match field.kind with
  | .reg => (Token.readReg token).map .reg
  | .signed | .unsigned => (Token.readImm token).map .imm

end Asm16
