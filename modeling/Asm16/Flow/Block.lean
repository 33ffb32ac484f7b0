import Asm16.Flow.Traversal

namespace Asm16

/-- The addresses from `start` to before `stop`. -/
structure Block where
  start : Nat
  stop : Nat
  deriving DecidableEq, Repr

namespace Block

def addresses (block : Block) : List Nat :=
  List.range' block.start (block.stop - block.start)

def ofRun? : List Nat → Option Block
  | [] => none
  | start :: rest => some ⟨start, rest.getLastD start + 1⟩

/-- The addresses where a block has to start. -/
def starts (entries : List Nat) (edges : List Edge) : Std.TreeSet Nat :=
  Std.TreeSet.ofList (entries ++ (edges.filter (·.kind ≠ .fallthrough)).map Edge.target)

structure Exits where
  sources : Std.TreeSet Nat
  /-- The addresses with an edge that is no fallthrough. -/
  transfers : Std.TreeSet Nat

def exits (edges : List Edge) : Exits where
  sources := Std.TreeSet.ofList (edges.map Edge.source)
  transfers := Std.TreeSet.ofList ((edges.filter (·.kind ≠ .fallthrough)).map Edge.source)

/-- Whether a block has to end after an address. -/
def Exits.ends (exits : Exits) (address : Nat) : Bool :=
  exits.transfers.contains address || !exits.sources.contains address

/-- Whether two visited addresses, the second next in order, lie in one block. -/
def joined (starts : Std.TreeSet Nat) (exits : Exits) (address next : Nat) : Bool :=
  next == address + 1 && !starts.contains next && !exits.ends address

def ofVisited (entries : List Nat) (visited : Std.TreeSet Nat) (edges : List Edge) : List Block :=
  (visited.toList.splitBy (joined (starts entries edges) (exits edges))).filterMap ofRun?

end Block

end Asm16
