/-
Lexicon.Bits.RankRecord — the counts kept for one 512-bit block.

A record says how many ones precede its block and how many ones of the block
precede each of its words 1 … 7. The count before word `j` reaches `64 * j`,
so the seven counts take 7, 8, 8, 9, 9, 9 and 9 bits, four of them in one
32-bit word and three in another. `RankRecord.setRel` writes one field and
leaves the others as they were.
-/
import Lexicon.Bits.Word

namespace Lexicon

/-- The counts of one block: the ones before it, and the packed counts before its words. -/
structure RankRecord where
  /-- Ones before the block. -/
  absolute : UInt32 := 0
  /-- The counts before words 1 … 4. -/
  low : UInt32 := 0
  /-- The counts before words 5 … 7. -/
  high : UInt32 := 0
  deriving DecidableEq, Inhabited, Repr

namespace RankRecord

/-- Where a packed count stands: in which of the two words, from which bit, how wide. -/
structure Field where
  inHigh : Bool
  shift : UInt32
  width : UInt32

/-- The field of the count before word `j`, for `j` in 1 … 7. -/
def field : Nat → Field
  | 1 => ⟨false, 0, 7⟩
  | 2 => ⟨false, 7, 8⟩
  | 3 => ⟨false, 15, 8⟩
  | 4 => ⟨false, 23, 9⟩
  | 5 => ⟨true, 0, 9⟩
  | 6 => ⟨true, 9, 9⟩
  | _ => ⟨true, 18, 9⟩

/-- The bits of a field, moved down to the low end. -/
def Field.lowMask (f : Field) : UInt32 :=
  (1 <<< f.width) - 1

/-- The value that a field holds in a word. -/
def Field.read (f : Field) (word : UInt32) : UInt32 :=
  (word >>> f.shift) &&& f.lowMask

/-- The word with a field replaced. -/
def Field.write (f : Field) (word value : UInt32) : UInt32 :=
  let mask := f.lowMask <<< f.shift
  (word &&& ~~~mask) ||| ((value <<< f.shift) &&& mask)

/-- The number of ones before the block. -/
def abs (r : RankRecord) : Nat :=
  r.absolute.toNat

/-- The record with another count before the block. -/
def setAbs (r : RankRecord) (value : Nat) : RankRecord :=
  { r with absolute := value.toUInt32 }

/-- The number of ones of the block before its word `j`, for `j` in 0 … 7. -/
def rel (r : RankRecord) (j : Nat) : Nat :=
  if j = 0 then 0
  else
    let f := field j
    (f.read (if f.inHigh then r.high else r.low)).toNat

/-- The record with another count before word `j`, for `j` in 1 … 7. -/
def setRel (r : RankRecord) (j value : Nat) : RankRecord :=
  let f := field j
  if f.inHigh then { r with high := f.write r.high value.toUInt32 }
  else { r with low := f.write r.low value.toUInt32 }

/-- The number of ones in a list of words. -/
def onesIn (words : List Word) : Nat :=
  sumOf (words.map Word.ones)

/-- The record of a block of at most eight words; missing words count as empty. -/
def ofBlock (before : Nat) (words : List Word) : RankRecord :=
  [1, 2, 3, 4, 5, 6, 7].foldl (fun r j => r.setRel j (onesIn (words.take j)))
    (({} : RankRecord).setAbs before)

end RankRecord

end Lexicon
