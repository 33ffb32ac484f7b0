import Std.Data.TreeMap
import Asm16.Flow.Edge
import Asm16.Text.Numeral

namespace Asm16

abbrev Labels := Std.TreeMap Nat String

namespace Labels

def subroutine (address : Nat) : String :=
  "sub_" ++ String.ofList (Numeral.hex 4 address)

def location (address : Nat) : String :=
  "loc_" ++ String.ofList (Numeral.hex 4 address)

/-- A later name replaces an earlier one of the same address. -/
def ofPairs (pairs : List (Nat × String)) : Labels :=
  pairs.foldl (fun labels pair => labels.insert pair.1 pair.2) ∅

/-- Names the target of an edge, unless it has a name or control only falls through to it. -/
def nameTarget (labels : Labels) (edge : Edge) : Labels :=
  match edge.kind with
  | .call => labels.insertIfNew edge.target (subroutine edge.target)
  | .branch | .condBranch => labels.insertIfNew edge.target (location edge.target)
  | .fallthrough => labels

/-- Adds names to the imported ones: first for the entries, then for the targets in the order of
the edges. -/
def extend (imported : Labels) (entries : List Nat) (edges : List Edge) : Labels :=
  edges.foldl nameTarget
    (entries.foldl (fun labels entry => labels.insertIfNew entry (subroutine entry)) imported)

end Labels

/-- Puts a label in place of the address to which the instruction sends control. -/
def Instr.symbolize (labels : Labels) (instr : Instr) (address : Nat) : Instr :=
  match (instr.target? address).bind fun target => labels[target]? with
  | some name => instr.withImm (.label name)
  | none => instr

end Asm16
