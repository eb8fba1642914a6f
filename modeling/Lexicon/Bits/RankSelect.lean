/-
Lexicon.Bits.RankSelect — counting bits before a position and finding them again.

`rank1?`, `rank0?` and `find?` are for callers that know where the question makes
sense: a rank up to the end of the vector, and the position of a bit of a sampled
kind below the number of such bits. They read the index by checked access, so an
answer also says that every record and word it needed was there. `rank1`, `rank0`,
`select1?` and `select0?` are the total forms.
-/
import Lexicon.Bits.BitVector
import Lexicon.Fault

namespace Lexicon.BitVector

/-- Bit `i`, if there is one. -/
def get? (v : BitVector) (i : Nat) : Option Bool :=
  if i < v.size then (v.words[i / 64]?).map (·.bit (i % 64)) else none

/-- Bit `i`, or the complaint that there is none. -/
def get (v : BitVector) (i : Nat) : Except Fault Bool :=
  if i < v.size then (v.get? i).elim (.error .corrupt) .ok else .error (.outOfBounds i v.size)

/-! ## Rank -/

/-- The number of ones before position `i`, for `i` up to the size. -/
def rank1? (v : BitVector) (i : Nat) : Option Nat := do
  if i ≤ v.size then
    let record ← v.ranks[i / 512]?
    let before := record.abs + record.rel (i / 64 % 8)
    if i % 64 = 0 then
      some before
    else
      let word ← v.words[i / 64]?
      some (before + word.onesBelow (i % 64))
  else
    none

/-- The number of zeros before position `i`, for `i` up to the size. -/
def rank0? (v : BitVector) (i : Nat) : Option Nat :=
  (v.rank1? i).map (i - ·)

/-- The number of ones before position `i`, positions past the end counting as the end. -/
def rank1 (v : BitVector) (i : Nat) : Nat :=
  (v.rank1? (min i v.size)).getD 0

/-- The number of zeros before position `i`, positions past the end counting as the end. -/
def rank0 (v : BitVector) (i : Nat) : Nat :=
  min i v.size - v.rank1 i

/-! ## Select -/

/-- The sampled positions of one kind of bit. -/
def samplesOf (v : BitVector) (kind : Bool) : Array UInt32 :=
  if kind then v.oneSamples else v.zeroSamples

/-- Whether the positions of one kind of bit were sampled. -/
def hasSamples (v : BitVector) (kind : Bool) : Bool :=
  if kind then v.hasOneSamples else v.hasZeroSamples

/-- The number of bits of one kind. -/
def count (v : BitVector) (kind : Bool) : Nat :=
  if kind then v.ones else v.zeros

/-- The number of bits of one kind before a block. -/
def beforeBlock? (v : BitVector) (kind : Bool) (block : Nat) : Option Nat :=
  (v.ranks[block]?).map fun record => if kind then record.abs else 512 * block - record.abs

/-- The first block from `first` on behind which more than `k` bits of the kind stand, found by
going on block by block. -/
def blockByScan? (v : BitVector) (kind : Bool) (k first : Nat) : Option Nat := do
  if first + 1 < v.ranks.size then
    if k < (← v.beforeBlock? kind (first + 1)) then
      some first
    else
      blockByScan? v kind k (first + 1)
  else
    none
termination_by v.ranks.size - first

/-- The last of the blocks from `first` up to `stop` that starts with at most `k` bits of the kind
before it, found by halving; `first` is taken to be one. -/
def blockByHalving? (v : BitVector) (kind : Bool) (k first stop : Nat) : Option Nat := do
  if first + 1 < stop then
    let middle := (first + stop) / 2
    if k < (← v.beforeBlock? kind middle) then
      blockByHalving? v kind k first middle
    else
      blockByHalving? v kind k middle stop
  else
    some first
termination_by stop - first

/-- As many blocks at most are gone through one by one. -/
def scanLimit : Nat := 10

/-- The block of the `k`-th bit of one kind, which is one of those from `first` up to `stop`. -/
def blockOf? (v : BitVector) (kind : Bool) (k first stop : Nat) : Option Nat :=
  if stop ≤ first + scanLimit then v.blockByScan? kind k first
  else v.blockByHalving? kind k first stop

/-- The number of bits of one kind before word `j` of a block. -/
def beforeWord (record : RankRecord) (kind : Bool) (j : Nat) : Nat :=
  if kind then record.rel j else 64 * j - record.rel j

/-- The last word of a block with at most `k` bits of the kind before it. -/
def wordOf (record : RankRecord) (kind : Bool) (k : Nat) : Nat :=
  let half := if k < beforeWord record kind 4 then 0 else 4
  let quarter := if beforeWord record kind (half + 2) ≤ k then half + 2 else half
  if beforeWord record kind (quarter + 1) ≤ k then quarter + 1 else quarter

/-- The position of the `k`-th bit of one kind, which stands in the given block. -/
def selectInBlock? (v : BitVector) (kind : Bool) (k block : Nat) : Option Nat := do
  let record ← v.ranks[block]?
  let before ← v.beforeBlock? kind block
  let j := wordOf record kind (k - before)
  let word ← v.words[8 * block + j]?
  let i ← Word.select? (if kind then word else ~~~word) (k - before - beforeWord record kind j)
  some (64 * (8 * block + j) + i)

/-- The position of the `k`-th bit of one kind, `k` from 0, for a kind that was sampled and `k`
below the number of such bits. -/
def find? (v : BitVector) (kind : Bool) (k : Nat) : Option Nat := do
  let sample ← (v.samplesOf kind)[k / 512]?
  if k % 512 = 0 then
    some sample.toNat
  else
    let next ← (v.samplesOf kind)[k / 512 + 1]?
    let block ← v.blockOf? kind k (sample.toNat / 512) (blocksOf 512 next.toNat)
    v.selectInBlock? kind k block

/-- The position of the `k`-th bit of one kind, `k` from 0.

None if that kind was not sampled or the vector has no more than `k` such bits. -/
def select? (v : BitVector) (kind : Bool) (k : Nat) : Option Nat :=
  if v.hasSamples kind ∧ k < v.count kind then v.find? kind k else none

/-- The position of the `k`-th one. -/
def select1? (v : BitVector) (k : Nat) : Option Nat :=
  v.select? true k

/-- The position of the `k`-th zero. -/
def select0? (v : BitVector) (k : Nat) : Option Nat :=
  v.select? false k

end Lexicon.BitVector
