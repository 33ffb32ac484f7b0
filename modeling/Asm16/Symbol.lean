import Std.Data.TreeMap
import Std.Data.TreeSet
import Asm16.Isa.Word

namespace Asm16

/-- A label with its address and the line that defines it. -/
structure Symbol where
  name : String
  address : Word
  lineNo : Nat
  deriving DecidableEq, Repr

structure DuplicateLabel where
  name : String
  lineNo : Nat
  firstLineNo : Nat
  deriving DecidableEq, Repr

/-- The order of symbols in a report: by address, then by name. -/
def Symbol.order : Symbol → Symbol → Ordering :=
  compareLex (compareOn Symbol.address) (compareOn Symbol.name)

instance : Std.TransCmp Symbol.order :=
  inferInstanceAs (Std.TransCmp (compareLex (compareOn Symbol.address) (compareOn Symbol.name)))

/-- Symbols by name. Names are case-sensitive. -/
structure SymbolTable where
  byName : Std.TreeMap String Symbol := ∅

namespace SymbolTable

def empty : SymbolTable := {}

def lookup? (table : SymbolTable) (name : String) : Option Symbol :=
  table.byName[name]?

def size (table : SymbolTable) : Nat :=
  table.byName.size

def define (table : SymbolTable) (symbol : Symbol) : Except DuplicateLabel SymbolTable :=
  match table.lookup? symbol.name with
  | some first => .error ⟨symbol.name, symbol.lineNo, first.lineNo⟩
  | none => .ok ⟨table.byName.insert symbol.name symbol⟩

/-- Defines symbols in order up to the first duplicate. -/
def defineEach (table : SymbolTable) (symbols : List Symbol) :
    Except DuplicateLabel SymbolTable :=
  symbols.foldlM define table

def defineNoting (state : SymbolTable × List DuplicateLabel) (symbol : Symbol) :
    SymbolTable × List DuplicateLabel :=
  match state.1.define symbol with
  | .ok table => (table, state.2)
  | .error duplicate => (state.1, duplicate :: state.2)

/-- Defines symbols in order and reports every duplicate. -/
def defineAll (table : SymbolTable) (symbols : List Symbol) :
    Except (List DuplicateLabel) SymbolTable :=
  let (table, duplicates) := symbols.foldl defineNoting (table, [])
  if duplicates.isEmpty then .ok table else .error duplicates.reverse

def sorted (table : SymbolTable) : List Symbol :=
  (Std.TreeSet.ofList table.byName.values Symbol.order).toList

end SymbolTable

end Asm16
