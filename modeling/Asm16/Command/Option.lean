import Asm16.Isa.Word
import Asm16.Text.Blank
import Asm16.Text.Numeral

/-!
# Command-line options

Arguments are read against a list of known options. An option is written `--name=value` or
`--name value`, with a single letter also `-nvalue` or `-n value`, and a flag has no value.
-/

namespace Asm16.Command

structure OptionSpec where
  name : String
  short : Option Char := none
  takesValue : Bool := true
  repeats : Bool := false

inductive UsageError
  | unknownOption (argument : String)
  | unexpectedArgument (argument : String)
  | missingValue (name : String)
  | missingArgument (name : String)
  | repeatedOption (name : String)
  | badValue (name value : String)
  deriving DecidableEq, Repr

def UsageError.message : UsageError → String
  | .unknownOption argument => s!"unknown option `{argument}`"
  | .unexpectedArgument argument => s!"unexpected argument `{argument}`"
  | .missingValue name => s!"option `{name}` needs a value"
  | .missingArgument name => s!"argument `{name}` is missing"
  | .repeatedOption name => s!"option `{name}` is given twice"
  | .badValue name value => s!"invalid value `{value}` for `{name}`"

inductive Argument
  | positional (value : String)
  /-- Everything after it is positional. -/
  | separator
  /-- An option with its value, or a flag. -/
  | complete (spec : OptionSpec) (value : String)
  /-- An option whose value is the next argument. -/
  | awaiting (spec : OptionSpec)

def Argument.ofSpec (spec : OptionSpec) (value : Option String) : Except UsageError Argument :=
  match spec.takesValue, value with
  | true, some value => .ok (.complete spec value)
  | true, none => .ok (.awaiting spec)
  | false, none => .ok (.complete spec "")
  | false, some value => .error (.badValue spec.name value)

def Argument.ofLong (specs : List OptionSpec) (body : List Char) : Except UsageError Argument :=
  let name := String.ofList (body.takeWhile (· ≠ '='))
  let value := match body.dropWhile (· ≠ '=') with
    | [] => none
    | _ :: value => some (String.ofList value)
  match specs.find? (·.name = name) with
  | some spec => Argument.ofSpec spec value
  | none => .error (.unknownOption name)

def Argument.ofShort (specs : List OptionSpec) (letter : Char) (value : List Char) :
    Except UsageError Argument :=
  match specs.find? (·.short = some letter) with
  | some spec => Argument.ofSpec spec (if value.isEmpty then none else some (String.ofList value))
  | none => .error (.unknownOption (String.ofList [letter]))

def Argument.read (specs : List OptionSpec) (argument : String) : Except UsageError Argument :=
  match argument.toList with
  | ['-', '-'] => .ok .separator
  | '-' :: '-' :: body => Argument.ofLong specs body
  | '-' :: letter :: value => Argument.ofShort specs letter value
  | _ => .ok (.positional argument)

structure Given where
  options : List (String × String) := []
  positionals : List String := []

namespace Given

def values (given : Given) (name : String) : List String :=
  (given.options.filter (·.1 = name)).map Prod.snd

def value? (given : Given) (name : String) : Option String :=
  (given.values name).head?

def flag (given : Given) (name : String) : Bool :=
  (given.value? name).isSome

def add (given : Given) (spec : OptionSpec) (value : String) : Except UsageError Given :=
  if !spec.repeats && given.flag spec.name then .error (.repeatedOption spec.name)
  else .ok { given with options := given.options ++ [(spec.name, value)] }

def readOr {α : Type} (given : Given) (name : String) (absent : α) (read? : String → Option α) :
    Except UsageError α :=
  match given.value? name with
  | none => .ok absent
  | some value =>
      match read? value with
      | some result => .ok result
      | none => .error (.badValue name value)

end Given

/-- Reads arguments up to the positional one with the number `stopAfter`, and returns the rest. -/
def scan (specs : List OptionSpec) (stopAfter : Option Nat) (given : Given) :
    List String → Except UsageError (Given × List String)
  | [] => .ok (given, [])
  | argument :: rest =>
      match Argument.read specs argument with
      | .error error => .error error
      | .ok .separator => .ok ({ given with positionals := given.positionals ++ rest }, [])
      | .ok (.positional value) =>
          let given := { given with positionals := given.positionals ++ [value] }
          if stopAfter = some given.positionals.length then .ok (given, rest)
          else scan specs stopAfter given rest
      | .ok (.complete spec value) =>
          match given.add spec value with
          | .error error => .error error
          | .ok given => scan specs stopAfter given rest
      | .ok (.awaiting spec) =>
          match rest with
          | [] => .error (.missingValue spec.name)
          | value :: rest =>
              match Argument.read specs value with
              | .ok (.positional value) =>
                  match given.add spec value with
                  | .error error => .error error
                  | .ok given => scan specs stopAfter given rest
              | _ => .error (.missingValue spec.name)

/-- An address: a decimal or marked hexadecimal numeral of at most sixteen bits, with blanks
around and a plus sign before it if one likes. -/
def address? (text : String) : Option Word :=
  let chars := Text.trim text.toList
  let number := match Numeral.dropHexMark? chars with
    | some digits => Numeral.readUnsigned 16 0xFFFF digits
    | none => Numeral.readUnsigned 10 0xFFFF chars
  number.toOption.map UInt16.ofNat

/-- A decimal numeral of at most 64 bits. -/
def count? (text : String) : Option Nat :=
  (Numeral.readUnsigned 10 (UInt64.size - 1) text.toList).toOption

end Asm16.Command
