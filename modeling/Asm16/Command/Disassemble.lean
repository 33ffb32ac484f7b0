import Asm16.Command.Assemble
import Asm16.Flow.Listing

namespace Asm16.Command

inductive ReportFormat
  | text
  | json

def reportFormat? : String → Option ReportFormat
  | "text" => some .text
  | "json" => some .json
  | _ => none

structure RangeTask where
  start : Option Word
  stop : Option Word
  showWords : Bool
  out : Option String

structure AnalyzeTask where
  entries : List Word
  budget : Nat
  format : ReportFormat
  showWords : Bool
  labelsIn : Option String
  labelsOut : Option String
  out : Option String

inductive Task
  | range (task : RangeTask)
  | analyze (task : AnalyzeTask)

structure DisassembleOptions where
  base : Word
  format : ImageFormat
  input : String
  task : Task

def readAddress (name text : String) : Except UsageError Word :=
  match address? text with
  | some address => .ok address
  | none => .error (.badValue name text)

namespace RangeTask

def specs : List OptionSpec :=
  [{ name := "show-words", takesValue := false }, { name := "out" }]

def ofArgs (args : List String) : Except UsageError RangeTask := do
  let (given, _) ← scan specs none {} args
  match given.positionals with
  | _ :: _ :: argument :: _ => .error (.unexpectedArgument argument)
  | bounds =>
      let bounds ← bounds.mapM (readAddress "bound")
      return {
        start := bounds[0]?
        stop := bounds[1]?
        showWords := given.flag "show-words"
        out := given.value? "out" }

/-- The listing of the range. Without bounds it covers the image. -/
def listing (task : RangeTask) (image : Image) : Except Failure String :=
  let start := (task.start.map UInt16.toNat).getD image.base.toNat
  let stop := (task.stop.map UInt16.toNat).getD image.limit
  if start ≤ stop then .ok (image.rangeListing start stop task.showWords)
  else .error .reversedRange

end RangeTask

/-- The text as standard output, or as a file if there is a path for it. -/
def emit (path : Option String) (text : String) : Output :=
  match path with
  | none => { stdout := text }
  | some path => { files := [(path, bytesOfText text)] }

namespace AnalyzeTask

def specs : List OptionSpec :=
  [{ name := "entry", repeats := true }, { name := "max-instr" }, { name := "format" },
    { name := "show-words", takesValue := false }, { name := "labels-in" },
    { name := "labels-out" }, { name := "out" }]

def ofArgs (args : List String) : Except UsageError AnalyzeTask := do
  let (given, _) ← scan specs none {} args
  match given.positionals with
  | argument :: _ => .error (.unexpectedArgument argument)
  | [] =>
      let entries ← (given.values "entry").mapM (readAddress "entry")
      let budget ← given.readOr "max-instr" 65536 count?
      let format ← given.readOr "format" .text reportFormat?
      return {
        entries, budget, format
        showWords := given.flag "show-words"
        labelsIn := given.value? "labels-in"
        labelsOut := given.value? "labels-out"
        out := given.value? "out" }

/-- The entries in increasing order, each once. Without any, the image is entered at its base. -/
def seeds (task : AnalyzeTask) (image : Image) : List Nat :=
  let entries := if task.entries.isEmpty then [image.base] else task.entries
  (Std.TreeSet.ofList (entries.map UInt16.toNat)).toList

def readLabels (task : AnalyzeTask) (files : Files) : Except Failure Labels :=
  match task.labelsIn with
  | none => .ok ∅
  | some path => do
      let text ← (readText files path).mapError fun error => .loading (.file error)
      match (Json.ofText? text).bind Labels.ofJson? with
      | some labels => .ok labels
      | none => .error (.settings path)

def run (task : AnalyzeTask) (image : Image) (files : Files) : Except Failure Output := do
  let imported ← task.readLabels files
  let analysis := image.analyze (task.seeds image) task.budget imported
  let text := match task.format with
    | .text => analysis.listing task.showWords
    | .json => (analysis.toJson task.showWords).text ++ "\n"
  let output := emit task.out text
  let labels := task.labelsOut.toList.map fun path =>
    (path, bytesOfText analysis.labels.toJson.text)
  return { output with files := labels ++ output.files }

end AnalyzeTask

namespace DisassembleOptions

def specs : List OptionSpec :=
  [{ name := "base" }, { name := "input-format" }]

def ofArgs (args : List String) : Except UsageError DisassembleOptions := do
  let (given, rest) ← scan specs (some 2) {} args
  let base ← given.readOr "base" 0 address?
  let format ← given.readOr "input-format" .binary imageFormat?
  match given.positionals with
  | [input, "range"] =>
      let task ← RangeTask.ofArgs rest
      return { base, format, input, task := .range task }
  | [input, "analyze"] =>
      let task ← AnalyzeTask.ofArgs rest
      return { base, format, input, task := .analyze task }
  | [_, command] => .error (.unexpectedArgument command)
  | _ => .error (.missingArgument "command")

def inputs (options : DisassembleOptions) : List String :=
  options.input :: match options.task with
    | .range _ => []
    | .analyze task => task.labelsIn.toList

def run (options : DisassembleOptions) (files : Files) : Except Failure Output := do
  let image ← (Image.load options.format options.base (contents files options.input)).mapError
    .loading
  match options.task with
  | .range task =>
      let text ← task.listing image
      return emit task.out text
  | .analyze task => task.run image files

end DisassembleOptions

def disassemblePlan (args : List String) : Except Failure Plan := do
  let options ← (DisassembleOptions.ofArgs args).mapError .usage
  return ⟨options.inputs, options.run⟩

end Asm16.Command
