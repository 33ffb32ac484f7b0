namespace Asm16

inductive FileError
  | notFound
  /-- A folder stands where a file is wanted. -/
  | isFolder
  /-- A file stands where a folder is wanted. -/
  | notFolder
  | nameTooLong
  | notText
  /-- Any other failure, in the words of the system. -/
  | other (text : String)
  deriving DecidableEq, Repr

def FileError.message : FileError → String
  | .notFound => "No such file or directory (os error 2)"
  | .isFolder => "Is a directory (os error 21)"
  | .notFolder => "Not a directory (os error 20)"
  | .nameTooLong => "File name too long (os error 36)"
  | .notText => "stream did not contain valid UTF-8"
  | .other text => text

/-- What reading a file gives. -/
abbrev Contents := Except FileError (List UInt8)

structure FileAccess (m : Type → Type) where
  read : String → m Contents
  write : String → List UInt8 → m (Except FileError Unit)

/-- The text that bytes in UTF-8 spell. -/
def textOfBytes (bytes : List UInt8) : Except FileError String :=
  match String.fromUTF8? ⟨bytes.toArray⟩ with
  | some text => .ok text
  | none => .error .notText

def bytesOfText (text : String) : List UInt8 :=
  text.toUTF8.data.toList

end Asm16
