/-
Lexicon.Bits.BitVector — immutable sequences of bits with an index.

`BitVector.ofBits` packs a list of bits into words and computes its index: one
`RankRecord` for every 512-bit block and one more that holds the total, and on
request the position of every 512th zero and of every 512th one, each list
closed by the number of bits. Vectors are read by `Lexicon.Bits.RankSelect`.
-/
import Lexicon.Bits.RankRecord
import Lexicon.Fault
import Lexicon.Wire.Blob

namespace Lexicon

/-- A sequence of bits with its rank records and its select samples. -/
structure BitVector where
  words : Array Word
  /-- The number of bits. -/
  size : Nat
  /-- The number of one bits. -/
  ones : Nat
  ranks : Array RankRecord
  /-- Positions of every 512th zero, closed by the size; empty if zeros are not sampled. -/
  zeroSamples : Array UInt32
  /-- Positions of every 512th one, closed by the size; empty if ones are not sampled. -/
  oneSamples : Array UInt32
  deriving DecidableEq, Repr

namespace BitVector

/-- The vector that was never built: no bits and no index. -/
def empty : BitVector :=
  ⟨#[], 0, 0, #[], #[], #[]⟩

instance : Inhabited BitVector := ⟨empty⟩

/-- The records of the given number of blocks, `before` ones preceding the first, and the total. -/
def rankRecords : Nat → Nat → List Word → List RankRecord
  | 0, before, _ => [RankRecord.ofBlock before []]
  | blocks + 1, before, words =>
    RankRecord.ofBlock before (words.take 8) ::
      rankRecords blocks (before + RankRecord.onesIn (words.take 8)) (words.drop 8)

/-- The positions of every 512th bit of one kind, and the position after the last bit.

`position` is the position of the first bit of the list and `seen` the number of
bits of that kind before it. -/
def samples (kind : Bool) : (position seen : Nat) → List Bool → List UInt32
  | position, _, [] => [position.toUInt32]
  | position, seen, b :: bits =>
    if b = kind then
      if seen % 512 = 0 then
        position.toUInt32 :: samples kind (position + 1) (seen + 1) bits
      else
        samples kind (position + 1) (seen + 1) bits
    else
      samples kind (position + 1) seen bits

/-- The vector of a list of bits, with the samples asked for. -/
def ofBits (bits : List Bool) (sampleZeros sampleOnes : Bool) : BitVector :=
  let words := packBits bits
  { words := words.toArray
    size := bits.length
    ones := bits.count true
    ranks := (rankRecords (blocksOf 512 bits.length) 0 words).toArray
    zeroSamples := if sampleZeros then (samples false 0 0 bits).toArray else #[]
    oneSamples := if sampleOnes then (samples true 0 0 bits).toArray else #[] }

/-- Refuses to make a vector of too many bits. -/
def checkSize (bits : Nat) : Except Fault Unit :=
  if bits < UInt32.size then .ok () else .error .tooManyBits

theorem checkSize_of_lt {bits : Nat} (h : bits < UInt32.size) : checkSize bits = .ok () :=
  if_pos h

/-- The number of zero bits. -/
def zeros (v : BitVector) : Nat :=
  v.size - v.ones

/-- Whether the positions of zeros were sampled. -/
def hasZeroSamples (v : BitVector) : Bool :=
  !v.zeroSamples.isEmpty

/-- Whether the positions of ones were sampled. -/
def hasOneSamples (v : BitVector) : Bool :=
  !v.oneSamples.isEmpty

/-! ## Sizes -/

/-- The bytes that the vector occupies in memory. -/
def storageSize (v : BitVector) : Nat :=
  8 * v.words.size + 12 * v.ranks.size + 4 * v.zeroSamples.size + 4 * v.oneSamples.size

/-- The bytes that the vector occupies in the stored form. -/
def wireSize (v : BitVector) : Nat :=
  blobSize (8 * v.words.size) + 8 + blobSize (12 * v.ranks.size)
    + blobSize (4 * v.zeroSamples.size) + blobSize (4 * v.oneSamples.size)

end BitVector

end Lexicon
