import Asm16.Command.Option
import Asm16.Command.Settings
import Asm16.Image

/-!
# Outcomes of commands

A command reads files and either fails with a message or yields its output. It is a function of
its options and the contents of the files. Only then is the output written, file after file.
-/

namespace Asm16.Command

abbrev Files := List (String × Contents)

/-- What a command writes: to standard output, and to files in order. -/
structure Output where
  stdout : String := ""
  files : List (String × List UInt8) := []

inductive Failure
  | usage (error : UsageError)
  | reading (path : String) (error : FileError)
  | writing (path : String) (error : FileError)
  | settings (path : String)
  | assembling (path : String) (error : AssemblyError)
  | loading (error : LoadError)
  | reversedRange

/-- A command with its options: the paths that it reads, in order, and what it makes of them. -/
structure Plan where
  inputs : List String
  run : Files → Except Failure Output

def contents (files : Files) (path : String) : Contents :=
  (files.lookup path).getD (.error .notFound)

def readText (files : Files) (path : String) : Except FileError String := do
  let bytes ← contents files path
  textOfBytes bytes

namespace Failure

/-- A cause under its context, with every line indented. -/
def withCause (context cause : String) : String :=
  let indented := String.ofList
    (cause.toList.flatMap fun c => if c = '\n' then "\n    ".toList else [c])
  s!"Error: {context}\n\nCaused by:\n    {indented}\n"

def message : Failure → String
  | .usage error => s!"error: {error.message}\n"
  | .reading path error => withCause s!"reading {path}" error.message
  | .writing _ error => s!"Error: {error.message}\n"
  | .settings path => withCause s!"parsing {path}" "not JSON of the expected form"
  | .assembling path error => withCause s!"assembling {path}" error.message
  | .loading error => s!"Error: {error.message}\n"
  | .reversedRange => "Error: end must be >= start\n"

def exitCode : Failure → UInt32
  | .usage _ => 2
  | _ => 1

end Failure

/-- Writes files in order, up to the first that cannot be written. -/
def writeFiles {m : Type → Type} [Monad m] (access : FileAccess m) :
    List (String × List UInt8) → m (Except Failure Unit)
  | [] => return .ok ()
  | (path, bytes) :: rest => do
      match ← access.write path bytes with
      | .ok () => writeFiles access rest
      | .error error => return .error (.writing path error)

/-- Carries out a command and returns what it leaves for standard output. -/
def Plan.execute {m : Type → Type} [Monad m] (plan : Plan) (access : FileAccess m) :
    m (Except Failure String) := do
  let files ← plan.inputs.mapM fun path => return (path, ← access.read path)
  match plan.run files with
  | .error failure => return .error failure
  | .ok output =>
      let written ← writeFiles access output.files
      return written.map fun _ => output.stdout

end Asm16.Command
