import Asm16.Flow.Block
import Asm16.Flow.Labels
import Asm16.Instr.Printer
import Asm16.Json.Pretty

namespace Asm16

def Image.line (image : Image) (labels : Labels) (showWords : Bool) (address : Nat) : String :=
  let place := Numeral.wordHex address
  match image.word? address with
  | none => s!"{place}: <oob>"
  | some word =>
      let text := match decode word with
        | .ok instr => (instr.symbolize labels address).text
        | .error _ => Word.text word
      let shown := if showWords then String.ofList (Numeral.hex 4 word.toNat) ++ "  " else ""
      s!"{place}: {shown}{text}"

def unlines (lines : List String) : String :=
  String.join (lines.map (· ++ "\n"))

/-- The lines from `start` to before `stop`. -/
def Image.rangeListing (image : Image) (start stop : Nat) (showWords : Bool) : String :=
  unlines ((List.range' start (stop - start)).map (image.line ∅ showWords))

structure Analysis where
  image : Image
  entries : List Nat
  traversal : Traversal
  labels : Labels

def Image.analyze (image : Image) (entries : List Nat) (budget : Nat) (imported : Labels) :
    Analysis :=
  let traversal := image.traverse entries budget
  ⟨image, entries, traversal, imported.extend entries traversal.edges.toList⟩

namespace Analysis

def blocks (analysis : Analysis) : List Block :=
  Block.ofVisited analysis.entries analysis.traversal.visited analysis.traversal.edges.toList

def blockLines (analysis : Analysis) (showWords : Bool) (block : Block) : List String :=
  block.addresses.map (analysis.image.line analysis.labels showWords)

def header (analysis : Analysis) : String :=
  let entries := analysis.entries.map fun entry => Json.quoted (Numeral.wordHex entry)
  let entries := "[" ++ ", ".intercalate entries ++ "]"
  let visited := analysis.traversal.visited.size
  let blocks := analysis.blocks.length
  let edges := analysis.traversal.edges.size
  s!"; entries {entries}, {visited} insts, {blocks} blocks, {edges} edges"

/-- The listing: each block under its label. -/
def listing (analysis : Analysis) (showWords : Bool) : String :=
  let blockText (block : Block) : List String :=
    (analysis.labels[block.start]?).toList.map (· ++ ":") ++
      (analysis.blockLines showWords block).map ("  " ++ ·)
  unlines (analysis.header :: analysis.blocks.flatMap blockText)

end Analysis

open Json in
def Labels.toJson (labels : Labels) : Pretty :=
  .array (labels.toList.map fun (address, name) =>
    .object [("addr", .number address), ("name", .string name)])

open Json in
def Edge.toJson (edge : Edge) : Pretty :=
  .object [("from", .number edge.source), ("to", .number edge.target),
    ("kind", .string edge.kind.short)]

open Json in
def Analysis.toJson (analysis : Analysis) (showWords : Bool) : Pretty :=
  let block (block : Block) : Pretty :=
    .object [("start", .number block.start), ("end", .number block.stop),
      ("insns", .array ((analysis.blockLines showWords block).map .string))]
  .object [("entries", .array (analysis.entries.map .number)),
    ("blocks", .array (analysis.blocks.map block)),
    ("edges", .array (analysis.traversal.edges.toList.map Edge.toJson)),
    ("labels", analysis.labels.toJson)]

end Asm16
