import Asm16.Text.Numeral

namespace Asm16.Json

/-- A value to be written at some level of indentation. -/
abbrev Pretty := Nat → String

/-- The written form of a character in a string. Quotes, backslashes and control characters are
escaped, and nothing else. -/
def escaped (c : Char) : List Char :=
  match c with
  | '"' => ['\\', '"']
  | '\\' => ['\\', '\\']
  | '\x08' => ['\\', 'b']
  | '\t' => ['\\', 't']
  | '\n' => ['\\', 'n']
  | '\x0c' => ['\\', 'f']
  | '\r' => ['\\', 'r']
  | c => if c.toNat < 0x20 then ['\\', 'u'] ++ Numeral.hex 4 c.toNat else [c]

def quoted (text : String) : String :=
  String.ofList ('"' :: (text.toList.flatMap escaped ++ ['"']))

namespace Pretty

def number (value : Nat) : Pretty :=
  fun _ => String.ofList (Nat.toDigits 10 value)

def string (text : String) : Pretty :=
  fun _ => quoted text

def indent (level : Nat) : String :=
  String.ofList (List.replicate (2 * level) ' ')

def enclosed (opening closing : String) (items : List Pretty) : Pretty := fun level =>
  if items.isEmpty then opening ++ closing
  else
    let body := items.map fun item => indent (level + 1) ++ item (level + 1)
    opening ++ "\n" ++ ",\n".intercalate body ++ "\n" ++ indent level ++ closing

def array (items : List Pretty) : Pretty :=
  enclosed "[" "]" items

def object (members : List (String × Pretty)) : Pretty :=
  enclosed "\x7b" "\x7d" (members.map fun (name, value) level =>
    quoted name ++ ": " ++ value level)

def text (value : Pretty) : String :=
  value 0

end Pretty

end Asm16.Json
