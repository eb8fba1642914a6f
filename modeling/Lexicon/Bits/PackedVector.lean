/-
Lexicon.Bits.PackedVector — arrays of numbers at their least common width.

Every value takes as many bits as the largest one needs, one value after the
other, so a value may lie across two words. An array of zeros takes no bits but
keeps one word. `ofList` packs the bits of all values at once; `fill?` ors one
value after the other into its place and comes to the same words.
-/
import Lexicon.Bits.Word
import Lexicon.Fault
import Lexicon.Wire.Blob

namespace Lexicon

/-- Numbers of one common width, packed into words. -/
structure PackedVector where
  words : Array Word
  /-- The bits of one value, at most 32. -/
  width : Nat
  /-- The number of values. -/
  size : Nat
  deriving DecidableEq, Repr

namespace PackedVector

/-- The vector without values. -/
def empty : PackedVector :=
  ⟨#[], 0, 0⟩

instance : Inhabited PackedVector := ⟨empty⟩

/-- The lowest `width` bits of a value, the lowest first. -/
def valueBits (width : Nat) (value : UInt32) : List Bool :=
  (List.range width).map (value.toNat.testBit ·)

/-- The word with the lowest `width` bits set. -/
def maskOf (width : Nat) : UInt32 :=
  ((1 <<< width) - 1).toUInt32

/-- The vector of a list of values. -/
def ofList (values : List UInt32) : PackedVector :=
  let width := bitLength (values.foldl (fun m v => max m v.toNat) 0)
  { words :=
      if width = 0 ∧ values ≠ [] then #[0]
      else (packBits (values.flatMap (valueBits width))).toArray
    width := width
    size := values.length }

/-- The words with a value or-ed into them from bit `position` on, its upper bits into a second word
if the first has no room for them; none if a word that it takes is not there. -/
def orAt? (words : Array Word) (width position : Nat) (value : UInt32) : Option (Array Word) := do
  let low ← words[position / 64]?
  let lowered := words.setIfInBounds (position / 64)
    (low ||| (value.toUInt64 <<< (position % 64).toUInt64))
  if position % 64 + width ≤ 64 then
    some lowered
  else
    let next ← lowered[position / 64 + 1]?
    some (lowered.setIfInBounds (position / 64 + 1)
      (next ||| (value.toUInt64 >>> (64 - position % 64).toUInt64)))

/-- The words of values of the given width, each or-ed into its place among words of zeros, as few
as have room for all of them. -/
def fill? (width : Nat) (values : List UInt32) : Option (Array Word) :=
  let count := if width = 0 ∧ values ≠ [] then 1 else blocksOf 64 (width * values.length)
  values.zipIdx.foldlM (fun words (value, i) => orAt? words width (i * width) value)
    (Array.replicate count 0)

/-- Value `i`, if there is one. -/
def get? (v : PackedVector) (i : Nat) : Option UInt32 := do
  if i < v.size then
    let position := i * v.width
    let word ← v.words[position / 64]?
    let low := word >>> (position % 64).toUInt64
    if position % 64 + v.width ≤ 64 then
      some (low.toUInt32 &&& maskOf v.width)
    else
      let next ← v.words[position / 64 + 1]?
      some ((low ||| (next <<< (64 - position % 64).toUInt64)).toUInt32 &&& maskOf v.width)
  else
    none

/-- Value `i`, or the complaint that there is none. -/
def get (v : PackedVector) (i : Nat) : Except Fault UInt32 :=
  if i < v.size then (v.get? i).elim (.error .corrupt) .ok else .error (.outOfBounds i v.size)

/-! ## Sizes -/

/-- The bytes that the vector occupies in memory. -/
def storageSize (v : PackedVector) : Nat :=
  8 * v.words.size

/-- The bytes that the vector occupies in the stored form. -/
def wireSize (v : PackedVector) : Nat :=
  blobSize (8 * v.words.size) + 16

end PackedVector

end Lexicon
