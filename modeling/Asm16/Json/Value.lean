namespace Asm16

inductive Json
  | null
  | bool (value : Bool)
  | int (value : Int)
  /-- A number with a fraction or an exponent, or a negative zero, as written. -/
  | real (literal : List Char)
  /-- A string. It has no text if an escape in it is half of a surrogate pair. -/
  | string (text : Option String)
  | array (items : List Json)
  /-- The members in order. A name may come twice. -/
  | object (members : List (Option String × Json))

namespace Json

def bool? : Json → Option Bool
  | .bool value => some value
  | _ => none

def string? : Json → Option String
  | .string text => text
  | _ => none

def array? : Json → Option (List Json)
  | .array items => some items
  | _ => none

/-- An integer from zero up to `limit`. -/
def nat? (limit : Nat) : Json → Option Nat
  | .int (.ofNat value) => if value ≤ limit then some value else none
  | _ => none

def valuesOf (names : List String) (members : List (Option String × Json)) : List Json :=
  (members.filter fun member => member.1.any names.contains).map Prod.snd

/-- The members of an object, if every name has a text. -/
def members? : Json → Option (List (Option String × Json))
  | .object members => if members.all (·.1.isSome) then some members else none
  | _ => none

end Json

end Asm16
