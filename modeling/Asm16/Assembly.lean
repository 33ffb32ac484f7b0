import Asm16.Resolve

namespace Asm16

structure Config where
  origin : Word := 0
  reporting : Reporting := .first
  deriving DecidableEq, Repr

structure Assembly where
  statements : List Resolved
  /-- One word per statement. -/
  words : List Word
  /-- The labels by address, then by name. -/
  symbols : List Symbol
  deriving DecidableEq, Repr

inductive AssemblyError
  | parse (error : ParseError)
  | resolve (error : ResolveError)
  | encode (lineNo : Nat) (error : EncodeError)
  | multiple (errors : List AssemblyError)
  deriving Repr

namespace AssemblyError

/-- One error for a list of them. A single error stands for itself. -/
def ofList : List AssemblyError → AssemblyError
  | [error] => error
  | errors => .multiple errors

mutual

/-- The single errors inside an error, in order. -/
def flatten : AssemblyError → List AssemblyError
  | .multiple errors => flattenAll errors
  | .parse error => [.parse error]
  | .resolve error => [.resolve error]
  | .encode lineNo error => [.encode lineNo error]

def flattenAll : List AssemblyError → List AssemblyError
  | [] => []
  | error :: errors => error.flatten ++ flattenAll errors

end

mutual

def message : AssemblyError → String
  | .parse error => error.message
  | .resolve error => error.message
  | .encode lineNo error => s!"line {lineNo}: {error.message}"
  | .multiple errors =>
      s!"{errors.length} errors:\n" ++ "\n".intercalate (itemMessages errors)

def itemMessages : List AssemblyError → List String
  | [] => []
  | error :: errors => s!"- {error.message}" :: itemMessages errors

end

end AssemblyError

def Program.parseWith (reporting : Reporting) (source : String) : Except AssemblyError Program :=
  match reporting with
  | .first => (parse source).mapError .parse
  | .all => (parseAll source).mapError fun errors => .ofList (errors.map .parse)

def encodeStatements (reporting : Reporting) (statements : List Resolved) :
    Except AssemblyError (List Word) :=
  (reporting.traverse (fun stmt => (encode stmt.instr).mapError (.encode stmt.lineNo ·))
    statements).mapError .ofList

def assemble (source : String) (config : Config) : Except AssemblyError Assembly := do
  let program ← Program.parseWith config.reporting source
  let fail (errors : List ResolveError) := AssemblyError.ofList (errors.map .resolve)
  let table ← (program.symbols config.reporting config.origin).mapError fail
  let statements ← (program.substitute config.reporting config.origin table).mapError fail
  let words ← encodeStatements config.reporting statements
  return ⟨statements, words, table.sorted⟩

end Asm16
