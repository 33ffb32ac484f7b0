namespace Asm16.Numeral

/-- The value of a digit in `base`, which is at most sixteen. Letters count in either case. -/
def digit? (base : Nat) (c : Char) : Option Nat :=
  let value :=
    if '0' ≤ c ∧ c ≤ '9' then some (c.toNat - '0'.toNat)
    else if 'a' ≤ c ∧ c ≤ 'f' then some (c.toNat - 'a'.toNat + 10)
    else if 'A' ≤ c ∧ c ≤ 'F' then some (c.toNat - 'A'.toNat + 10)
    else none
  value.filter (· < base)

inductive ReadError
  | empty
  | invalidDigit
  | tooLarge
  deriving DecidableEq, Repr

def ReadError.message : ReadError → String
  | .empty => "cannot parse integer from empty string"
  | .invalidDigit => "invalid digit found in string"
  | .tooLarge => "number too large to fit in target type"

/-- Reads the digits that follow a numeral of value `value`. A character that is no digit and a
digit that passes the limit both end the reading, whichever comes first. -/
def readDigits (base limit value : Nat) : List Char → Except ReadError Nat
  | [] => .ok value
  | c :: rest =>
      match digit? base c with
      | none => .error .invalidDigit
      | some digit =>
          if value * base + digit ≤ limit then readDigits base limit (value * base + digit) rest
          else .error .tooLarge

/-- Reads a numeral with an optional plus sign. A sign alone is an invalid digit. -/
def readUnsigned (base limit : Nat) : List Char → Except ReadError Nat
  | [] => .error .empty
  | ['+'] => .error .invalidDigit
  | '+' :: digits => readDigits base limit 0 digits
  | digits => readDigits base limit 0 digits

def dropHexMark? : List Char → Option (List Char)
  | '0' :: 'x' :: digits => some digits
  | '0' :: 'X' :: digits => some digits
  | _ => none

def natural? (digits : List Char) : Option Nat :=
  if digits.isEmpty || !digits.all Char.isDigit then none
  else some (Nat.ofDigitChars 10 digits 0)

/-- The integer that an optional sign and a non-empty run of decimal digits denote. -/
def decimal? : List Char → Option Int
  | '-' :: digits => (natural? digits).map fun n : Nat => -(n : Int)
  | '+' :: digits => (natural? digits).map fun n : Nat => (n : Int)
  | digits => (natural? digits).map fun n : Nat => (n : Int)

/-- The nearest integer within the bounds. -/
def clamp (least greatest value : Int) : Int :=
  max least (min greatest value)

/-- Decimal notation, with a minus sign below zero. -/
def decimal (value : Int) : List Char :=
  if value < 0 then '-' :: Nat.toDigits 10 value.natAbs else Nat.toDigits 10 value.natAbs

/-- Lower-case hexadecimal notation of at least `width` digits. -/
def hex (width value : Nat) : List Char :=
  (Nat.toDigits 16 value).leftpad width '0'

/-- Marked hexadecimal notation without leading zeros. -/
def shortHex (value : Nat) : String :=
  "0x" ++ String.ofList (hex 1 value)

/-- Marked hexadecimal notation of at least four digits, as addresses and words are shown. -/
def wordHex (value : Nat) : String :=
  "0x" ++ String.ofList (hex 4 value)

end Asm16.Numeral
