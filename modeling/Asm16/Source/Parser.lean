import Asm16.Source.Program
import Asm16.Source.Token
import Asm16.Reporting
import Asm16.Text.Blank
import Asm16.Text.Line

/-!
# Parsing source text

A line holds an optional label with a colon, an optional instruction and an optional comment. The
tokens of an instruction are divided by commas.
-/

namespace Asm16

structure ParseError where
  lineNo : Nat
  line : String
  cause : ParseCause
  deriving DecidableEq, Repr

/-- The reason why a line holds no instruction, for the causes that concern its form. -/
def ParseCause.reason : ParseCause → String
  | .missingComma => "missing comma after the mnemonic?"
  | .operandCount mnemonic expected found =>
      s!"{mnemonic} expects {expected} operand(s), found {found}"
  | .build error => error.message
  | _ => ""

def ParseError.message (error : ParseError) : String :=
  let line := error.line
  let place := s!"line {error.lineNo}: "
  place ++ match error.cause with
  | .unknownMnemonic mnemonic => s!"unknown mnemonic `{mnemonic}` in `{line}`"
  | .malformedRegister token => s!"malformed register `{token}` in `{line}`"
  | .registerOutOfRange index => s!"register index {index} out of range in `{line}`"
  | .malformedImmediate token => s!"malformed immediate `{token}` in `{line}`"
  | .malformedLabel name => s!"malformed label `{name}` in `{line}`"
  | cause => s!"malformed instruction `{line}`: {cause.reason}"

/-- The meaningful part of a line: without its comment and the blanks around. -/
def lineText (line : List Char) : List Char :=
  Text.trim (Text.beforeComment line)

/-- Reads an instruction: a mnemonic and its operands, divided by commas. -/
def readInstr (text : List Char) : Except ParseCause Instr :=
  let tokens := (text.splitOn ',').map Text.trim
  let mnemonic := tokens.headD []
  let operands := tokens.tail
  if mnemonic.any Text.isBlank then .error .missingComma
  else
    match Row.ofMnemonic (String.ofList mnemonic) with
    | .error _ => .error (.unknownMnemonic (String.ofList mnemonic))
    | .ok row =>
        let fields := row.opcode.layout.operands
        if operands.length = fields.length then do
          let operands ← (fields.zip operands).mapM fun pair => pair.1.readOperand pair.2
          (Instr.ofOperands row operands).mapError .build
        else .error (.operandCount row.mnemonic fields.length operands.length)

/-- The label part of a line and what follows it. A colon after a comma belongs to an operand. -/
def splitLabel? (text : List Char) : Option (List Char × List Char) :=
  match text.dropWhile (· ≠ ':') with
  | [] => none
  | _ :: rest =>
      let name := text.takeWhile (· ≠ ':')
      if name.contains ',' then none else some (Text.trim name, Text.trim rest)

def readStmt (lineNo : Nat) (line text : List Char) : Except ParseCause Item :=
  (readInstr text).map fun instr => .stmt ⟨instr, lineNo, String.ofList line⟩

def readLine (lineNo : Nat) (line : List Char) : Except ParseCause (List Item) :=
  let text := lineText line
  match splitLabel? text with
  | none => if text = [] then .ok [] else (readStmt lineNo line text).map ([·])
  | some (name, rest) =>
      if Token.isIdentifier name then
        let label := Item.label (String.ofList name) lineNo
        if rest = [] then .ok [label] else (readStmt lineNo line rest).map ([label, ·])
      else .error (.malformedLabel (String.ofList name))

/-- The items of the line with the given index, counted from zero. -/
def parseLineAt (line : List Char × Nat) : Except ParseError (List Item) :=
  (readLine (line.2 + 1) line.1).mapError (⟨line.2 + 1, String.ofList line.1, ·⟩)

/-- Parses a line that stands alone and may not define a label. A line without an instruction is
no error. -/
def parseLine (line : String) : Except ParseError (Option Instr) :=
  let text := lineText line.toList
  if text = [] then .ok none
  else ((readInstr text).map some).mapError (⟨1, line, ·⟩)

namespace Program

def sourceLines (source : String) : List (List Char × Nat) :=
  (Text.lines source.toList).zipIdx

/-- Parses a source text up to its first bad line. -/
def parse (source : String) : Except ParseError Program := do
  let items ← (sourceLines source).mapM parseLineAt
  return ⟨items.flatten⟩

/-- Parses a source text and reports every bad line. -/
def parseAll (source : String) : Except (List ParseError) Program := do
  let items ← collect parseLineAt (sourceLines source)
  return ⟨items.flatten⟩

end Program

end Asm16
