/-
Lexicon.Bits.Broadword — finding a set bit of a word by arithmetic on the whole word.

`Word.select?` goes through a word byte by byte. Here all bytes are counted at once, each in a lane
of eight bits (`Word.byteCounts?`). One multiplication makes sums of the counts, one addition
carries into the top bit of every lane behind whose byte more set bits lie than are to be skipped,
and a table answers inside the byte (`Word.selectByTable?`). Where the machine can deposit bits, a
single bit is deposited instead (`Word.selectByDeposit?`). `Word.find?` takes the one way or the
other. Arithmetic that leaves its range, a shift by a whole word and a place outside a table give
no result.
-/
import Lexicon.Bits.Word

namespace Lexicon

namespace Word

/-! ## Machine operations -/

/-- A difference, if it is not below zero. -/
def minus? (a b : Word) : Option Word :=
  if b ≤ a then some (a - b) else none

/-- A sum, if a word holds it. -/
def plus? (a b : Word) : Option Word :=
  if a.toNat + b.toNat < UInt64.size then some (a + b) else none

/-- The eight bits from position `i` on, if the word has a position `i`. -/
def byteFrom? (w : Word) (i : Nat) : Option Word :=
  if i < 64 then some ((w >>> i.toUInt64) &&& 0xFF) else none

/-- The number of clear bits below the lowest set one, 64 if there is none. -/
def trailingZeros (w : Word) : Nat :=
  w.toBitVec.ctz.toNat

/-- The bits of a source from bit `k` on, the lowest first, at the set positions of a mask among the
given number of positions from `i` on; clear bits at the others. -/
def depositBits (source mask : Word) (i k : Nat) : Nat → List Bool
  | 0 => []
  | left + 1 =>
    if mask.bit i then source.bit k :: depositBits source mask (i + 1) (k + 1) left
    else false :: depositBits source mask (i + 1) k left

/-- The low bits of a source put to the set positions of a mask. -/
def deposit (source mask : Word) : Word :=
  ofBits (depositBits source mask 0 0 64)

/-! ## Lanes -/

/-- A one in every lane. -/
def laneOnes : Word := 0x0101010101010101

/-- The top bit of every lane. -/
def laneTops : Word := 0x8080808080808080

/-- In every lane the number of set bits of the byte, counted in pairs of bits, in fours and in all
eight. -/
def byteCounts? (w : Word) : Option Word := do
  let pairs ← minus? w ((w >>> 1) &&& 0x5555555555555555)
  let fours ← plus? (pairs &&& 0x3333333333333333) ((pairs >>> 2) &&& 0x3333333333333333)
  let eights ← plus? fours (fours >>> 4)
  some (eights &&& 0x0F0F0F0F0F0F0F0F)

/-! ## Tables -/

/-- A table by rank and byte, with the set bits of a byte among the given number of positions from
`pos` on entered into its rows from `rank` on. -/
def enterByte (byte : Nat) : (left pos rank : Nat) → Array (Array UInt8) → Array (Array UInt8)
  | 0, _, _, table => table
  | left + 1, pos, rank, table =>
    if bit byte.toUInt64 pos then
      enterByte byte left (pos + 1) (rank + 1)
        (table.modify rank (·.setIfInBounds byte pos.toUInt8))
    else
      enterByte byte left (pos + 1) rank table

/-- The position of the set bit of a byte that has `rank` set bits below it, by rank and byte; 8 if
the byte has no more than so many. -/
def placeTable : Array (Array UInt8) :=
  (List.range 256).foldl (fun table byte => enterByte byte 8 0 0 table)
    (Array.replicate 8 (Array.replicate 256 8))

/-- An entry of a table, if it is there. -/
def placeAt? (table : Array (Array UInt8)) (rank byte : Nat) : Option UInt8 := do
  (← table[rank]?)[byte]?

/-- What carries a number greater than `k` into the top bit of its lane, for every `k`. -/
def carryTable : Array Word :=
  ((List.range 64).map fun k => (0x7F - k).toUInt64 * laneOnes).toArray

/-! ## Select -/

/-- The number of bits below the first lane whose sum, with the addend, carries into its top bit. -/
def bitsBelowCarry (sums addend : Word) : Nat :=
  trailingZeros (((sums + addend) &&& laneTops) >>> 7)

/-- The position of the `k`-th set bit, which is in the byte behind the first `skip` bits. -/
def selectInByte? (w sums : Word) (k skip : Nat) : Option Nat := do
  let below ← byteFrom? (sums <<< 8) skip
  let byte ← w.byteFrom? skip
  if below.toNat ≤ k then
    let place ← placeAt? placeTable (k - below.toNat) byte.toNat
    some (skip + place.toNat)
  else
    none

/-- The position of the `k`-th set bit, by the sums of the counts of the bytes and the tables. -/
def selectByTable? (w : Word) (k : Nat) : Option Nat := do
  let counts ← w.byteCounts?
  let addend ← carryTable[k]?
  w.selectInByte? (counts * laneOnes) k (bitsBelowCarry (counts * laneOnes) addend)

/-- The position of the `k`-th set bit, by depositing bit `k`. -/
def selectByDeposit? (w : Word) (k : Nat) : Option Nat :=
  if k < 64 then some (trailingZeros (deposit (1 <<< k.toUInt64) w)) else none

/-- The position of the `k`-th set bit, `k` from 0, on a machine that can deposit bits or on one
that cannot; none if the word has no more than `k`. -/
def find? (deposits : Bool) (w : Word) (k : Nat) : Option Nat :=
  if k < w.ones then
    if deposits then w.selectByDeposit? k else w.selectByTable? k
  else
    none

end Word

end Lexicon
