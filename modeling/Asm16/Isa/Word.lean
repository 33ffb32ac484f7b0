namespace Asm16

abbrev Word := UInt16

/-- The number of words that addresses of sixteen bits can tell apart. -/
def addressSpace : Nat := 65536

/-- The bytes of a word, the low one first. -/
def Word.bytes (word : Word) : List UInt8 :=
  [UInt8.ofNat (word.toNat % 256), UInt8.ofNat (word.toNat / 256)]

def Word.ofBytes (low high : UInt8) : Word :=
  UInt16.ofNat (low.toNat + 256 * high.toNat)

end Asm16
