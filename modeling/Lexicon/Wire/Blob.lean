/-
Lexicon.Wire.Blob — how much room an array takes in the stored form.

An array is stored as a blob: its length in bytes as a 64-bit number, its
records, and zeros up to the next multiple of eight. A blob therefore starts
and ends at a multiple of eight, and `blobSize` says how long it is.
-/

namespace Lexicon

/-- The number of zero bytes after a blob that holds `bytes` bytes of records. -/
def padding (bytes : Nat) : Nat :=
  (8 - bytes % 8) % 8

/-- The stored length of a blob that holds `bytes` bytes of records. -/
def blobSize (bytes : Nat) : Nat :=
  8 + bytes + padding bytes

end Lexicon
