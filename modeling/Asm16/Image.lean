import Asm16.File
import Asm16.Instr.Encoding
import Asm16.Text.Blank
import Asm16.Text.Line

namespace Asm16

inductive ImageFormat
  | binary
  | hex
  deriving DecidableEq, Repr

structure Image where
  base : Word
  words : Array Word
  deriving DecidableEq, Repr

inductive LoadError
  | file (error : FileError)
  | oddLength (length : Nat)
  | badHexWord (lineNo : Nat) (token : String) (cause : Numeral.ReadError)
  | tooLarge
  deriving DecidableEq, Repr

def LoadError.message : LoadError → String
  | .file error => error.message
  | .oddLength length => s!"binary has odd length {length}"
  | .badHexWord lineNo token cause => s!"line {lineNo}: bad hex word `{token}`: {cause.message}"
  | .tooLarge => "image does not fit the 16-bit address space"

def pairWords : List UInt8 → List Word
  | low :: high :: rest => Word.ofBytes low high :: pairWords rest
  | _ => []

def wordsOfBytes (bytes : List UInt8) : Except LoadError (List Word) :=
  if bytes.length % 2 = 0 then .ok (pairWords bytes) else .error (.oddLength bytes.length)

/-- The word of a hexadecimal numeral, with or without its mark. -/
def wordOfHex (token : List Char) : Except Numeral.ReadError Word :=
  let digits := (Numeral.dropHexMark? token).getD token
  (Numeral.readUnsigned 16 0xFFFF digits).map UInt16.ofNat

/-- The numerals of a text, each with the index of its line. -/
def hexTokens (text : String) : List (List Char × Nat) :=
  (Text.lines text.toList).zipIdx.flatMap fun line =>
    (Text.words (Text.beforeComment line.1)).map fun token => (token, line.2)

def wordsOfHexText (text : String) : Except LoadError (List Word) :=
  (hexTokens text).mapM fun token =>
    (wordOfHex token.1).mapError (.badHexWord (token.2 + 1) (String.ofList token.1) ·)

namespace ImageFormat

def render (words : List Word) : ImageFormat → List UInt8
  | .binary => words.flatMap Word.bytes
  | .hex =>
      bytesOfText (String.ofList (words.flatMap fun word => Numeral.hex 4 word.toNat ++ ['\n']))

def read (bytes : List UInt8) : ImageFormat → Except LoadError (List Word)
  | .binary => wordsOfBytes bytes
  | .hex => do
      let text ← (textOfBytes bytes).mapError .file
      wordsOfHexText text

end ImageFormat

namespace Image

/-- The address after the last word, as a number of 32 bits. It wraps around, so an image with too
many words can have a small one. -/
def limit (image : Image) : Nat :=
  (image.base.toUInt32 + UInt32.ofNat image.words.size).toNat

theorem limit_eq (image : Image) : image.limit = (image.base.toNat + image.words.size) % 4294967296 := by
  simp [limit]

def word? (image : Image) (address : Nat) : Option Word :=
  if image.base.toNat ≤ address then image.words[address - image.base.toNat]? else none

abbrev Mapped (image : Image) (address : Nat) : Prop :=
  (image.word? address).isSome

def instr? (image : Image) (address : Nat) : Option Instr :=
  (image.word? address).bind fun word => (decode word).toOption

theorem mapped_iff {image : Image} {address : Nat} :
    image.Mapped address ↔ image.base.toNat ≤ address ∧ address < image.base.toNat + image.words.size := by
  unfold Mapped word?
  split
  · next above =>
      rw [Option.isSome_iff_ne_none, Ne, Array.getElem?_eq_none_iff]
      omega
  · next below => simp [below]

theorem mapped_of_instr? {image : Image} {address : Nat} {instr : Instr}
    (found : image.instr? address = some instr) : image.Mapped address := by
  obtain ⟨word, read, _⟩ := Option.bind_eq_some_iff.mp found
  rw [Mapped, read]
  rfl

/-- Loads a file at `base`, unless the limit of the image is outside the address space. -/
def load (format : ImageFormat) (base : Word) (file : Contents) : Except LoadError Image := do
  let bytes ← file.mapError .file
  let words ← format.read bytes
  let image : Image := ⟨base, words.toArray⟩
  if image.limit ≤ addressSpace then .ok image else .error .tooLarge

end Image

end Asm16
