/-
Lexicon.Bits.Indexing — building a bit vector bit by bit, and its index word by word.

`BitVector.ofBits` packs and counts a whole list at once. Here a `BitBuilder` takes one bit after
the other, and `BitVector.index?` goes once through the words and counts: every word first says how
many ones stand before it, and then gives at most one sample of each kind, which is found from the
number of bits of that kind seen so far. A count is written only where there is room for it, and
nothing is read that is not there; otherwise there is no index.
-/
import Lexicon.Bits.BitVector

namespace Lexicon

/-! ## Counts of a record -/

namespace RankRecord

/-- The record with another count before the block, if it fits. -/
def setAbs? (r : RankRecord) (value : Nat) : Option RankRecord :=
  if value < UInt32.size then some (r.setAbs value) else none

/-- The record with another count before word `j`, if there is such a count and it fits. -/
def setRel? (r : RankRecord) (j value : Nat) : Option RankRecord :=
  if 1 ≤ j ∧ j < 8 ∧ value ≤ 64 * j then some (r.setRel j value) else none

/-- The record of a block of which word `j` is reached after so many ones of all blocks. -/
def reach? (r : RankRecord) (j ones : Nat) : Option RankRecord :=
  if j = 0 then r.setAbs? ones
  else if r.abs ≤ ones then r.setRel? j (ones - r.abs)
  else none

end RankRecord

/-! ## Counting through the words -/

/-- The index of the words that were gone through, and the bits of each kind in them. Zeros are only
counted if they are sampled. -/
structure Indexing where
  ranks : Array RankRecord
  zeroSamples : Array UInt32 := #[]
  oneSamples : Array UInt32 := #[]
  zeros : Nat := 0
  ones : Nat := 0

namespace Indexing

/-- How many more bits of a kind stand before the next one to sample; the negation wraps around. -/
def gap (seen : Nat) : Nat :=
  (-seen.toUInt64).toNat % 512

/-- The samples with that of a word, if the word has more than the missing number of bits of the
kind. These are its set bits. -/
def sample? (samples : Array UInt32) (word : Word) (position count seen : Nat) :
    Option (Array UInt32) :=
  if gap seen < count then
    (word.select? (gap seen)).map fun i => samples.push (position + i).toUInt32
  else
    some samples

/-- The number of zeros in word `n`, of which there may be less than 64 bits. -/
def zerosOf? (size n : Nat) (word : Word) : Option Nat :=
  if 64 * n ≤ size ∧ word.ones ≤ min (size - 64 * n) 64 then
    some (min (size - 64 * n) 64 - word.ones)
  else
    none

/-- The samples and the number of the zeros behind word `n`. -/
def zerosBehind? (sampled : Bool) (size n : Nat) (state : Indexing) (word : Word) :
    Option (Array UInt32 × Nat) :=
  if sampled then do
    let count ← zerosOf? size n word
    let samples ← sample? state.zeroSamples (~~~word) (64 * n) count state.zeros
    some (samples, state.zeros + count)
  else
    some (state.zeroSamples, state.zeros)

/-- The samples of the ones behind word `n`. -/
def onesBehind? (sampled : Bool) (n : Nat) (state : Indexing) (word : Word) :
    Option (Array UInt32) :=
  if sampled then sample? state.oneSamples word (64 * n) word.ones state.ones
  else some state.oneSamples

/-- Goes on by word `n`. -/
def step? (sampleZeros sampleOnes : Bool) (size n : Nat) (state : Indexing) (word : Word) :
    Option Indexing := do
  let record ← state.ranks[64 * n / 512]?
  let reached ← record.reach? (n % 8) state.ones
  let (zeroSamples, zeros) ← zerosBehind? sampleZeros size n state word
  let oneSamples ← onesBehind? sampleOnes n state word
  some
    { ranks := state.ranks.setIfInBounds (64 * n / 512) reached
      zeroSamples, oneSamples, zeros
      ones := state.ones + word.ones }

/-- Goes on by the words from word `n` on. -/
def steps? (sampleZeros sampleOnes : Bool) (size : Nat) :
    (n : Nat) → List Word → Indexing → Option Indexing
  | _, [], state => some state
  | n, word :: words, state => do
    let next ← step? sampleZeros sampleOnes size n state word
    steps? sampleZeros sampleOnes size (n + 1) words next

/-- The records after the last word, where the words that the last block lacks are reached as well. -/
def fillLast? (size ones : Nat) (ranks : Array RankRecord) : Option (Array RankRecord) :=
  if size % 512 = 0 then
    some ranks
  else do
    let last := (size - 1) / 64 % 8
    let record ← ranks[(size - 1) / 512]?
    let filled ← (List.range' (last + 1) (7 - last)).foldlM (fun r j => r.reach? j ones) record
    some (ranks.setIfInBounds ((size - 1) / 512) filled)

end Indexing

/-- The vector with the index of its words, with the samples asked for. -/
def BitVector.index? (v : BitVector) (sampleZeros sampleOnes : Bool) : Option BitVector := do
  let blocks := blocksOf 512 v.size
  let state ← Indexing.steps? sampleZeros sampleOnes v.size 0 v.words.toList
    { ranks := Array.replicate (blocks + 1) {} }
  let ranks ← Indexing.fillLast? v.size state.ones state.ranks
  let total ← (← ranks[blocks]?).setAbs? state.ones
  if state.ones = v.ones then
    some
      { v with
        ranks := ranks.setIfInBounds blocks total
        zeroSamples :=
          if sampleZeros then state.zeroSamples.push v.size.toUInt32 else state.zeroSamples
        oneSamples :=
          if sampleOnes then state.oneSamples.push v.size.toUInt32 else state.oneSamples }
  else
    none

/-! ## Taking bits -/

/-- The bits that were taken so far. -/
structure BitBuilder where
  words : Array Word := #[]
  size : Nat := 0
  ones : Nat := 0

namespace BitBuilder

/-- Takes one more bit. -/
def push (b : BitBuilder) (bit : Bool) : BitBuilder :=
  let words := if b.size % 64 = 0 then b.words.push 0 else b.words
  if bit then
    { words :=
        match words.back? with
        | some word =>
          words.setIfInBounds (words.size - 1) (word ||| (1 <<< (b.size % 64).toUInt64))
        | none => words
      size := b.size + 1
      ones := b.ones + 1 }
  else
    { b with words, size := b.size + 1 }

/-- The vector of the bits, with the samples asked for, if the bits are not too many. -/
def build? (b : BitBuilder) (sampleZeros sampleOnes : Bool) : Option BitVector :=
  if b.size < UInt32.size then
    { BitVector.empty with words := b.words, size := b.size, ones := b.ones }.index? sampleZeros
      sampleOnes
  else
    none

end BitBuilder

end Lexicon
