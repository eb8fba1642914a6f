/-
Lexicon.Bits.Word — 64-bit words as sets of positions.

Position 0 is the least significant bit. `Word.ones` counts the set bits of a
word, `Word.onesBelow` those under a position, and `Word.select?` finds the
`k`-th set bit: it skips whole bytes by their counts and finishes inside the
byte that holds the bit. `Word.ofBits` goes the other way, from the bits of a
list to the word that holds them.
-/
import Lexicon.Arithmetic

namespace Lexicon

/-- A 64-bit word, read as the set of positions of its one bits. -/
abbrev Word := UInt64

namespace Word

/-- Bit `i` of a word, for `i` below 64. -/
def bit (w : Word) (i : Nat) : Bool :=
  (w >>> i.toUInt64) &&& 1 == 1

/-- The number of set bits among the `n` positions from `i` on. -/
def onesFrom (w : Word) (i : Nat) : Nat → Nat
  | 0 => 0
  | n + 1 => (w.bit i).toNat + onesFrom w (i + 1) n

/-- The number of set bits below position `n`, for `n` up to 64. -/
def onesBelow (w : Word) (n : Nat) : Nat :=
  w.onesFrom 0 n

/-- The number of set bits. -/
def ones (w : Word) : Nat :=
  w.onesBelow 64

/-! ## Select -/

/-- The position of the `k`-th set bit among the given number of positions from `i` on. -/
def selectBit (w : Word) (k i : Nat) : Nat → Option Nat
  | 0 => none
  | left + 1 =>
    if w.bit i then
      if k = 0 then some i else selectBit w (k - 1) (i + 1) left
    else
      selectBit w k (i + 1) left

/-- The position of the `k`-th set bit among the given number of bytes from position `i` on. -/
def selectByte (w : Word) (k i : Nat) : Nat → Option Nat
  | 0 => none
  | left + 1 =>
    let count := w.onesFrom i 8
    if k < count then w.selectBit k i 8 else selectByte w (k - count) (i + 8) left

/-- The position of the `k`-th set bit, `k` from 0; none if the word has no more than `k`. -/
def select? (w : Word) (k : Nat) : Option Nat :=
  w.selectByte k 0 8

/-! ## Packing -/

/-- The word that holds the bits of a list of at most 64, the first one lowest. -/
def ofBits (bits : List Bool) : Word :=
  bits.foldr (fun b w => (w <<< 1) ||| (if b then 1 else 0)) 0

/-- The given number of words that hold the bits of a list, 64 to a word, padded with zeros. -/
def pack : Nat → List Bool → List Word
  | 0, _ => []
  | n + 1, bits => ofBits (bits.take 64) :: pack n (bits.drop 64)

end Word

/-- The words that hold the bits of a list, as few as can. -/
def packBits (bits : List Bool) : List Word :=
  Word.pack (blocksOf 64 bits.length) bits

end Lexicon
