/-
Lexicon.Wire.Numbers — numbers as bytes, the lowest byte first.
-/

namespace Lexicon

/-- The lowest bytes of a number, so many of them, the lowest first. -/
def littleEndian : (count : Nat) → Nat → List UInt8
  | 0, _ => []
  | count + 1, n => (n % 256).toUInt8 :: littleEndian count (n / 256)

/-- The number whose bytes are given, the lowest first. -/
def ofLittleEndian : List UInt8 → Nat
  | [] => 0
  | b :: bytes => b.toNat + 256 * ofLittleEndian bytes

/-- The given number of groups of so many bytes. -/
def byteGroups (size : Nat) : (count : Nat) → List UInt8 → List (List UInt8)
  | 0, _ => []
  | count + 1, bytes => bytes.take size :: byteGroups size count (bytes.drop size)

end Lexicon
