import Asm16.Json.Value
import Asm16.Text.Numeral

namespace Asm16.Json

def isSpace (c : Char) : Bool :=
  c == ' ' || c == '\t' || c == '\n' || c == '\r'

def skipSpace (text : List Char) : List Char :=
  text.dropWhile isSpace

/-- A part of a string: a character, or a UTF-16 unit from an escape. -/
inductive StringPart
  | char (c : Char)
  | unit (value : Nat)

def escape? : Char → Option Char
  | '"' => some '"'
  | '\\' => some '\\'
  | '/' => some '/'
  | 'b' => some '\x08'
  | 'f' => some '\x0c'
  | 'n' => some '\n'
  | 'r' => some '\r'
  | 't' => some '\t'
  | _ => none

def hexUnit? (digits : List Char) : Option Nat :=
  (digits.mapM (Numeral.digit? 16)).map fun values =>
    values.foldl (fun value digit => value * 16 + digit) 0

/-- Reads the parts of a string up to its closing quote, after the parts in `found`. -/
def readParts (found : List StringPart) : List Char → Option (List StringPart × List Char)
  | [] => none
  | '"' :: rest => some (found.reverse, rest)
  | '\\' :: 'u' :: a :: b :: c :: d :: rest =>
      match hexUnit? [a, b, c, d] with
      | some value => readParts (.unit value :: found) rest
      | none => none
  | '\\' :: c :: rest =>
      match escape? c with
      | some character => readParts (.char character :: found) rest
      | none => none
  | c :: rest => if c.toNat < 0x20 then none else readParts (.char c :: found) rest

def isHighSurrogate (value : Nat) : Bool := 0xD800 ≤ value && value ≤ 0xDBFF

def isLowSurrogate (value : Nat) : Bool := 0xDC00 ≤ value && value ≤ 0xDFFF

/-- The text of a string's parts, after the characters in `found`. Surrogates must come in
pairs. -/
def textOfParts (found : List Char) : List StringPart → Option String
  | [] => some (String.ofList found.reverse)
  | .char c :: rest => textOfParts (c :: found) rest
  | .unit high :: .unit low :: rest =>
      if isHighSurrogate high then
        if isLowSurrogate low then
          let value := 0x10000 + (high - 0xD800) * 0x400 + (low - 0xDC00)
          textOfParts (Char.ofNat value :: found) rest
        else none
      else if isLowSurrogate high then none
      else textOfParts (Char.ofNat high :: found) (.unit low :: rest)
  | .unit value :: rest =>
      if isHighSurrogate value || isLowSurrogate value then none
      else textOfParts (Char.ofNat value :: found) rest

def readString (text : List Char) : Option (Option String × List Char) :=
  (readParts [] text).map fun (parts, rest) => (textOfParts [] parts, rest)

def isDigitRun (digits : List Char) : Bool :=
  !digits.isEmpty && digits.all Char.isDigit

/-- Whether digits are the integer part of a number: no zero leads. -/
def isIntegerPart : List Char → Bool
  | ['0'] => true
  | '0' :: _ => false
  | digits => isDigitRun digits

def readFraction : List Char → Option (List Char × List Char)
  | '.' :: rest =>
      let digits := rest.takeWhile Char.isDigit
      if digits.isEmpty then none else some ('.' :: digits, rest.dropWhile Char.isDigit)
  | rest => some ([], rest)

def readExponent : List Char → Option (List Char × List Char)
  | mark :: rest =>
      if mark == 'e' || mark == 'E' then
        let sign := match rest with
          | c :: _ => if c == '+' || c == '-' then [c] else []
          | [] => []
        let rest := rest.drop sign.length
        let digits := rest.takeWhile Char.isDigit
        if digits.isEmpty then none
        else some (mark :: sign ++ digits, rest.dropWhile Char.isDigit)
      else some ([], mark :: rest)
  | [] => some ([], [])

def readNumber (text : List Char) : Option (Json × List Char) := do
  let sign := text.takeWhile (· == '-')
  let rest := text.drop sign.length
  let whole := rest.takeWhile Char.isDigit
  guard (sign.length ≤ 1 && isIntegerPart whole)
  let (fraction, rest) ← readFraction (rest.dropWhile Char.isDigit)
  let (exponent, rest) ← readExponent rest
  let value := Nat.ofDigitChars 10 whole 0
  let number : Json :=
    if !fraction.isEmpty || !exponent.isEmpty || (!sign.isEmpty && value == 0) then
      .real (sign ++ whole ++ fraction ++ exponent)
    else if sign.isEmpty then .int value
    else .int (-value)
  return (number, rest)

mutual

/-- Reads a value. Every call of this and of the two functions below either consumes a character or
comes right after one that did, so that twice as many calls as characters are enough. -/
def readValue (calls : Nat) (text : List Char) : Option (Json × List Char) :=
  match calls with
  | 0 => none
  | calls + 1 =>
      match skipSpace text with
      | 'n' :: 'u' :: 'l' :: 'l' :: rest => some (.null, rest)
      | 't' :: 'r' :: 'u' :: 'e' :: rest => some (.bool true, rest)
      | 'f' :: 'a' :: 'l' :: 's' :: 'e' :: rest => some (.bool false, rest)
      | '"' :: rest => (readString rest).map fun (text, rest) => (.string text, rest)
      | '[' :: rest =>
          match skipSpace rest with
          | ']' :: rest => some (.array [], rest)
          | rest => readItems calls [] rest
      | '\x7b' :: rest =>
          match skipSpace rest with
          | '\x7d' :: rest => some (.object [], rest)
          | rest => readMembers calls [] rest
      | rest => readNumber rest

/-- Reads the items of an array up to its end, after the items in `found`. -/
def readItems (calls : Nat) (found : List Json) (text : List Char) :
    Option (Json × List Char) :=
  match calls with
  | 0 => none
  | calls + 1 =>
      match readValue calls text with
      | none => none
      | some (item, rest) =>
          match skipSpace rest with
          | ',' :: rest => readItems calls (item :: found) rest
          | ']' :: rest => some (.array (item :: found).reverse, rest)
          | _ => none

/-- Reads the members of an object up to its end, after the members in `found`. -/
def readMembers (calls : Nat) (found : List (Option String × Json)) (text : List Char) :
    Option (Json × List Char) :=
  match calls with
  | 0 => none
  | calls + 1 =>
      match skipSpace text with
      | '"' :: rest =>
          match readString rest with
          | none => none
          | some (name, rest) =>
              match skipSpace rest with
              | ':' :: rest =>
                  match readValue calls rest with
                  | none => none
                  | some (value, rest) =>
                      match skipSpace rest with
                      | ',' :: rest => readMembers calls ((name, value) :: found) rest
                      | '\x7d' :: rest =>
                          some (.object ((name, value) :: found).reverse, rest)
                      | _ => none
              | _ => none
      | _ => none

end

/-- Reads a text that holds one value and nothing else. -/
def ofText? (text : String) : Option Json :=
  let chars := text.toList
  match readValue (2 * chars.length + 2) chars with
  | some (value, rest) => if (skipSpace rest).isEmpty then some value else none
  | none => none

end Asm16.Json
