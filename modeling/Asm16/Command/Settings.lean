import Asm16.Assembly
import Asm16.Flow.Labels
import Asm16.Json.Reader

namespace Asm16

/-- Reads a member that may be missing, but comes only once. -/
def memberOr {α : Type} (absent : α) (read? : Json → Option α) : List Json → Option α
  | [] => some absent
  | [value] => read? value
  | _ => none

def wordOfJson? (value : Json) : Option Word :=
  (value.nat? 0xFFFF).map UInt16.ofNat

def reportingOfJson? (value : Json) : Option Reporting :=
  value.bool?.map fun all => if all then .all else .first

/-- Reads a configuration: an object, or an array with the values in order. What is missing has
its default. -/
def Config.ofJson? : Json → Option Config
  | .array [] => some {}
  | .array [origin] => do
      let origin ← wordOfJson? origin
      return { origin }
  | .array [origin, reporting] => do
      let origin ← wordOfJson? origin
      let reporting ← reportingOfJson? reporting
      return { origin, reporting }
  | value => do
      let members ← value.members?
      let origin ← memberOr 0 wordOfJson? (Json.valuesOf ["origin"] members)
      let reporting ← memberOr .first reportingOfJson? (Json.valuesOf ["collect_errors"] members)
      return { origin, reporting }

/-- Reads an address of at most 32 bits and its name: an object, or an array of the two. -/
def labelOfJson? : Json → Option (Nat × String)
  | .array [address, name] => do
      let address ← address.nat? (UInt32.size - 1)
      let name ← name.string?
      return (address, name)
  | value => do
      let members ← value.members?
      match Json.valuesOf ["addr", "address"] members, Json.valuesOf ["name"] members with
      | [address], [name] =>
          let address ← address.nat? (UInt32.size - 1)
          let name ← name.string?
          return (address, name)
      | _, _ => none

def Labels.ofJson? (value : Json) : Option Labels := do
  let items ← value.array?
  let pairs ← items.mapM labelOfJson?
  return Labels.ofPairs pairs

end Asm16
