import Std.Data.TreeMap
import Asm16.File

namespace Asm16

/-- The files of a folder by name. -/
abbrev Folder := Std.TreeMap String (List UInt8)

/-- Where a path leads, seen from a folder without folders in it. -/
inductive Place
  /-- To a file of the folder, which need not exist. -/
  | file (name : String)
  /-- Through something in the folder, which would have to be a folder. -/
  | inside (name : String)
  /-- To a folder: this one, one above it, or one that a slash at the end asks for. -/
  | folder
  | nowhere
  deriving DecidableEq, Repr

/-- Reads a path: names divided by slashes, where `.` stays in place and `..` goes up. A slash at
the end asks for a folder, and one at the beginning leaves the folder. -/
def Place.ofPath (path : String) : Place :=
  let parts := path.toList.splitOn '/'
  match parts.filter fun part => part ≠ [] ∧ part ≠ ['.'] with
  | [] => if path = "" then .nowhere else .folder
  | name :: rest =>
      if parts.head? = some [] ∨ name = ['.', '.'] then
        if (name :: rest).all (· = ['.', '.']) then .folder else .nowhere
      else if rest = [] ∧ parts.getLast? = some name then .file (String.ofList name)
      else if rest = [] ∧ parts.getLast? = some [] then .folder
      else .inside (String.ofList name)

namespace Folder

/-- The size that the name of a file may have, in bytes. -/
def nameLimit : Nat := 255

def locate (folder : Folder) (path : String) : Except FileError String :=
  match Place.ofPath path with
  | .file name => if name.utf8ByteSize ≤ nameLimit then .ok name else .error .nameTooLong
  | .inside name => .error (if folder.contains name then .notFolder else .notFound)
  | .folder => .error .isFolder
  | .nowhere => .error .notFound

def read (folder : Folder) (path : String) : Contents := do
  let name ← folder.locate path
  match folder[name]? with
  | some bytes => .ok bytes
  | none => .error .notFound

/-- The folder with the file that a path leads to, new or in place of what it held. -/
def write (folder : Folder) (path : String) (bytes : List UInt8) : Except FileError Folder := do
  let name ← folder.locate path
  return folder.insert name bytes

def access : FileAccess (StateM Folder) where
  read path := return (← get).read path
  write path bytes := do
    match (← get).write path bytes with
    | .ok folder =>
        set folder
        return .ok ()
    | .error error => return .error error

end Folder

end Asm16
