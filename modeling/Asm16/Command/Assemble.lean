import Asm16.Command.Outcome
import Asm16.Json.Pretty

namespace Asm16.Command

structure AssembleOptions where
  input : String
  output : String
  format : ImageFormat
  /-- Takes precedence over the configuration. -/
  origin : Option Word
  keepGoing : Bool
  symbols : Option String
  config : Option String

def imageFormat? : String → Option ImageFormat
  | "bin" => some .binary
  | "hex" => some .hex
  | _ => none

namespace AssembleOptions

def specs : List OptionSpec :=
  [{ name := "input", short := some 'i' }, { name := "output", short := some 'o' },
    { name := "format" }, { name := "origin" }, { name := "keep-going", takesValue := false },
    { name := "symbols" }, { name := "config" }]

def required (given : Given) (name : String) : Except UsageError String :=
  match given.value? name with
  | some value => .ok value
  | none => .error (.missingArgument name)

def ofArgs (args : List String) : Except UsageError AssembleOptions := do
  let (given, _) ← scan specs none {} args
  match given.positionals with
  | argument :: _ => .error (.unexpectedArgument argument)
  | [] =>
      let input ← required given "input"
      let output ← required given "output"
      let format ← given.readOr "format" .binary imageFormat?
      let origin ← given.readOr "origin" none fun value => (address? value).map some
      return {
        input, output, format, origin
        keepGoing := given.flag "keep-going"
        symbols := given.value? "symbols"
        config := given.value? "config" }

def inputs (options : AssembleOptions) : List String :=
  options.config.toList ++ [options.input]

/-- The configuration from its file, changed by the options. -/
def readConfig (options : AssembleOptions) (files : Files) : Except Failure Config := do
  let config ← match options.config with
    | none => pure {}
    | some path =>
        let text ← (readText files path).mapError (.reading path)
        match (Json.ofText? text).bind Config.ofJson? with
        | some config => pure config
        | none => .error (.settings path)
  return {
    origin := options.origin.getD config.origin
    reporting := if options.keepGoing then .all else config.reporting }

open Json in
def symbolsJson (symbols : List Symbol) : Pretty :=
  .array (symbols.map fun symbol =>
    .object [("name", .string symbol.name), ("address", .number symbol.address.toNat),
      ("line_no", .number symbol.lineNo)])

def run (options : AssembleOptions) (files : Files) : Except Failure Output := do
  let config ← options.readConfig files
  let source ← (readText files options.input).mapError (.reading options.input)
  let assembly ← (assemble source config).mapError (.assembling options.input)
  let symbols := options.symbols.toList.map fun path =>
    (path, bytesOfText (symbolsJson assembly.symbols).text)
  return { files := (options.output, options.format.render assembly.words) :: symbols }

end AssembleOptions

def assemblePlan (args : List String) : Except Failure Plan := do
  let options ← (AssembleOptions.ofArgs args).mapError .usage
  return ⟨options.inputs, options.run⟩

end Asm16.Command
