import Asm16.Command.Disassemble

namespace Asm16

open Command

def fileError : IO.Error → FileError
  | .noFileOrDirectory .. => .notFound
  | .inappropriateType _ 21 _ => .isFolder
  | .inappropriateType _ 20 _ => .notFolder
  | error => .other (toString error)

def systemAccess : FileAccess IO where
  read path := do
    try
      return .ok (← IO.FS.readBinFile path).toList
    catch error => return .error (fileError error)
  write path bytes := do
    try
      IO.FS.writeBinFile path ⟨bytes.toArray⟩
      return .ok ()
    catch error => return .error (fileError error)

/-- Runs a command and returns its exit code. -/
def execute (plan : Except Failure Plan) : IO UInt32 := do
  let outcome ← match plan with
    | .error failure => pure (.error failure)
    | .ok plan => plan.execute systemAccess
  match outcome with
  | .error failure =>
      (← IO.getStderr).putStr failure.message
      return failure.exitCode
  | .ok text =>
      IO.print text
      return 0

end Asm16

open Asm16 Asm16.Command in
def main (args : List String) : IO UInt32 :=
  match args with
  | "asm" :: args => execute (assemblePlan args)
  | "disasm" :: args => execute (disassemblePlan args)
  | _ => execute (.error (.usage (.missingArgument "asm or disasm")))
