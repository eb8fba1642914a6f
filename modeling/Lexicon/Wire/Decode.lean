/-
Lexicon.Wire.Decode — restoring a dictionary from its stored form.

The fields are read in the order in which they are written, and what is read is
checked: counts against lengths inside every vector, and the vectors of a level
against each other. There is no mark for a next level; a level has one if it has
links and nothing in its tail. The same reader works on streams and on regions.
-/
import Lexicon.Wire.Encode
import Lexicon.Wire.Source

namespace Lexicon.Wire

variable {σ : Type} [ByteSource σ]

/-- An action that reads from a source. -/
abbrev Reader (σ α : Type) := StateT σ (Except Fault) α

/-- Stops with the complaint about the bytes unless the condition holds. -/
def require (condition : Prop) [Decidable condition] (reason : Malformed) : Reader σ Unit :=
  if condition then pure () else throw (.malformed reason)

/-- A number of so many bytes. -/
def readNumber (count : Nat) : Reader σ Nat := do
  let bytes ← (ByteSource.take count : Reader σ (List UInt8))
  pure (ofLittleEndian bytes)

/-- The bytes of a blob, split into its records. -/
def readBlob (record alignment : Nat) : Reader σ (List (List UInt8)) := do
  let length ← readNumber 8
  require (length % record = 0) (.unevenBlob length record)
  let bytes ← (ByteSource.takeRecords alignment length : Reader σ (List UInt8))
  let _ ← (ByteSource.take (padding length) : Reader σ (List UInt8))
  pure (byteGroups record (length / record) bytes)

/-- A blob of bytes. -/
def readBytes : Reader σ (Array UInt8) := do
  let length ← readNumber 8
  let bytes ← (ByteSource.takeRecords 1 length : Reader σ (List UInt8))
  let _ ← (ByteSource.take (padding length) : Reader σ (List UInt8))
  pure bytes.toArray

/-- A blob of words. -/
def readWords : Reader σ (Array Word) := do
  let groups ← readBlob 8 8
  pure (groups.map fun g => (ofLittleEndian g).toUInt64).toArray

/-- A blob of 32-bit numbers. -/
def readNumbers : Reader σ (Array UInt32) := do
  let groups ← readBlob 4 4
  pure (groups.map fun g => (ofLittleEndian g).toUInt32).toArray

/-- The three 32-bit numbers of a record of twelve bytes. -/
def triple (bytes : List UInt8) : UInt32 × UInt32 × UInt32 :=
  let number (start : Nat) := (ofLittleEndian ((bytes.drop start).take 4)).toUInt32
  (number 0, number 4, number 8)

/-- A blob of rank records. -/
def readRanks : Reader σ (Array RankRecord) := do
  let groups ← readBlob 12 4
  pure (groups.map fun g => let (a, b, c) := triple g; RankRecord.mk a b c).toArray

/-- A blob of cache slots. -/
def readSlots : Reader σ (Array Slot) := do
  let groups ← readBlob 12 4
  pure (groups.map fun g => let (a, b, c) := triple g; Slot.mk a b c).toArray

/-- A bit vector. -/
def readBitVector : Reader σ BitVector := do
  let words ← readWords
  let size ← readNumber 4
  let ones ← readNumber 4
  require (ones ≤ size) (.tooManyOnes ones size)
  require (words.size = blocksOf 64 size) (.wordCount size words.size)
  let ranks ← readRanks
  require (ranks.size = blocksOf 512 size + 1 ∨ (size = 0 ∧ ranks.size = 0))
    (.recordCount size ranks.size)
  let zeroSamples ← readNumbers
  let oneSamples ← readNumbers
  pure { words, size, ones, ranks, zeroSamples, oneSamples }

/-- A packed vector. -/
def readPackedVector : Reader σ PackedVector := do
  let words ← readWords
  let width ← readNumber 4
  require (width ≤ 32) (.valueWidth width)
  let mask ← readNumber 4
  require (mask = (PackedVector.maskOf width).toNat) (.valueMask mask width)
  let size ← readNumber 8
  if 0x10000000000000000 ≤ width * size then throw .lengthLimit
  require (width * size ≤ 64 * words.size ∧ (size = 0 ∨ words.size ≠ 0))
    (.valuesDoNotFit size width words.size)
  pure { words, width, size }

/-- A tail. -/
def readTail : Reader σ Tail := do
  let bytes ← readBytes
  let endFlags ← readBitVector
  require (endFlags.size = 0 ∨ endFlags.size = bytes.size)
    (.endFlagCount bytes.size endFlags.size)
  require (endFlags.size ≠ 0 ∨ bytes.size = 0 ∨ bytes.back? = some 0) .unterminatedTail
  pure { bytes, endFlags }

/-- Whether a number is a power of two. -/
def isPowerOfTwo (n : Nat) : Bool :=
  n ≠ 0 && n == 1 <<< n.log2

/-- Checks the parts of a level against each other; `held` is the number of levels it starts. -/
def checkLevel (first : Bool) (held : Nat) (l : Level) : Reader σ Unit := do
  let nodes := l.numNodes
  require (4 ≤ l.louds.size ∧ l.louds.hasOneSamples ∧ (first → l.louds.hasZeroSamples)) .shape
  require (l.bases.size = nodes ∧ l.links.size = nodes)
    (.nodeCount nodes l.bases.size l.links.size)
  require (l.extras.size = l.links.ones) (.extraCount l.links.ones l.extras.size)
  require (first → l.terminals.size = nodes + 1 ∧ l.terminals.hasOneSamples) .terminalFlags
  require (l.rootDegree < nodes) (.rootDegree l.rootDegree nodes)
  require (l.config.levels = held) (.levelCount l.config.levels held)

/-- A level and those below it; `fuel` bounds their number. -/
def readLevels : (fuel : Nat) → (first : Bool) → Reader σ (Level × List Level)
  | 0, _ => throw .corrupt
  | fuel + 1, first => do
    let louds ← readBitVector
    let terminals ← readBitVector
    let links ← readBitVector
    let bases ← readBytes
    let extras ← readPackedVector
    let tail ← readTail
    let below ←
      if links.ones ≠ 0 ∧ tail.isEmpty then
        (fun (next, deeper) => next :: deeper) <$> readLevels fuel false
      else
        pure []
    let cache ← readSlots
    require (isPowerOfTwo cache.size) (.cacheSize cache.size)
    let rootDegree ← readNumber 4
    let config ← (Config.ofWord (← readNumber 4).toUInt32 : Except Fault Config)
    let level : Level :=
      { louds, terminals, links, bases, extras, tail, cache, rootDegree, config }
    checkLevel first ((below.head?.map (·.config.levels)).getD 0 + 1) level
    pure (level, below)

/-- All levels, behind their header; `fuel` bounds their number. -/
def readCascade (fuel : Nat) : Reader σ Cascade := do
  let bytes ← (ByteSource.take header.length : Reader σ (List UInt8))
  require (bytes = header) .header
  let (top, deeper) ← readLevels fuel true
  pure { top, deeper }

end Lexicon.Wire

namespace Lexicon.Dictionary

/-- The dictionary that a stream stores. -/
def read (s : Stream) : Except Fault Dictionary := do
  let (cascade, _) ← (Wire.readCascade (sumOf (s.chunks.map (·.length)) + 1)).run s
  .ok ⟨some cascade⟩

/-- The dictionary that some bytes in memory store. -/
def ofBytes (bytes : List UInt8) : Except Fault Dictionary := do
  let (cascade, _) ← (Wire.readCascade (bytes.length + 1)).run (Region.ofBytes bytes)
  .ok ⟨some cascade⟩

end Lexicon.Dictionary
