import Asm16.Instr.Encoding

namespace Asm16

def registerMark : List Char := ['$', 'r']

def Operand.chars : Operand → List Char
  | .reg r => registerMark ++ Numeral.decimal r.val
  | .imm (.value value) => Numeral.decimal value.toInt
  | .imm (.label name) => name.toList

/-- The mnemonic and the operands, with a comma and a space between. -/
def Instr.chars (instr : Instr) : List Char :=
  [',', ' '].intercalate (instr.mnemonic.toList :: instr.operands.map Operand.chars)

def Instr.text (instr : Instr) : String :=
  String.ofList instr.chars

/-- The written form of a word. A word that is no instruction is shown as a number. -/
def Word.text (word : Word) : String :=
  match decode word with
  | .ok instr => instr.text
  | .error _ => s!".word {Numeral.wordHex word.toNat}"

end Asm16
