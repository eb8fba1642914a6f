/-
Lexicon.Wire.Encode — the stored form of a dictionary.

Behind a header of sixteen bytes stands the first level: its three bit vectors,
its bases, its extras and its tail, then the next level if there is one, then its
cache, its root degree and its configuration word. Arrays are blobs. The form is
given as the list of the pieces in which it is written.
-/
import Lexicon.Dictionary
import Lexicon.Wire.Numbers

namespace Lexicon

/-- The sixteen bytes with which every stored dictionary starts. -/
def header : List UInt8 :=
  "SuccinctTrie\x00v1\x00".toList.map fun c => c.toNat.toUInt8

/-- The pieces of a blob with the given bytes. -/
def blobPieces (bytes : List UInt8) : List (List UInt8) :=
  [littleEndian 8 bytes.length, bytes, List.replicate (padding bytes.length) 0]

/-- The bytes of some 32-bit numbers. -/
def bytes32 (numbers : List UInt32) : List UInt8 :=
  numbers.flatMap fun n => littleEndian 4 n.toNat

/-- The bytes of some words. -/
def bytes64 (words : List Word) : List UInt8 :=
  words.flatMap fun w => littleEndian 8 w.toNat

/-- The three numbers of a rank record. -/
def RankRecord.fields (r : RankRecord) : List UInt32 :=
  [r.absolute, r.low, r.high]

/-- The three numbers of a cache slot. -/
def Slot.fields (s : Slot) : List UInt32 :=
  [s.parent, s.child, s.link]

/-- The pieces of a bit vector. -/
def BitVector.pieces (v : BitVector) : List (List UInt8) :=
  blobPieces (bytes64 v.words.toList)
    ++ [littleEndian 4 v.size, littleEndian 4 v.ones]
    ++ blobPieces (bytes32 (v.ranks.toList.flatMap (·.fields)))
    ++ blobPieces (bytes32 v.zeroSamples.toList)
    ++ blobPieces (bytes32 v.oneSamples.toList)

/-- The pieces of a packed vector. -/
def PackedVector.pieces (v : PackedVector) : List (List UInt8) :=
  blobPieces (bytes64 v.words.toList)
    ++ [littleEndian 4 v.width, littleEndian 4 (PackedVector.maskOf v.width).toNat,
        littleEndian 8 v.size]

/-- The pieces of a tail. -/
def Tail.pieces (t : Tail) : List (List UInt8) :=
  blobPieces t.bytes.toList ++ t.endFlags.pieces

namespace Level

/-- The pieces of a level that stand before the next level. -/
def frontPieces (l : Level) : List (List UInt8) :=
  l.louds.pieces ++ l.terminals.pieces ++ l.links.pieces ++ blobPieces l.bases.toList
    ++ l.extras.pieces ++ l.tail.pieces

/-- The pieces of a level that stand after the next level. -/
def backPieces (l : Level) : List (List UInt8) :=
  blobPieces (bytes32 (l.cache.toList.flatMap (·.fields)))
    ++ [littleEndian 4 l.rootDegree, littleEndian 4 l.config.word.toNat]

end Level

namespace Cascade

/-- The pieces of a level and of those below it. -/
def levelPieces (level : Level) : List Level → List (List UInt8)
  | [] => level.frontPieces ++ level.backPieces
  | next :: deeper => level.frontPieces ++ levelPieces next deeper ++ level.backPieces

/-- The pieces in which the levels are written. -/
def pieces (c : Cascade) : List (List UInt8) :=
  header :: levelPieces c.top c.deeper

/-- The stored form. -/
def encode (c : Cascade) : List UInt8 :=
  c.pieces.flatten

end Cascade

/-- What reaches a sink that takes so many bytes when some pieces are written to it, and whether
all of them did. -/
def writeLimited : (capacity : Nat) → List (List UInt8) → List UInt8 × Except Fault Unit
  | _, [] => ([], .ok ())
  | capacity, piece :: pieces =>
    if piece.length ≤ capacity then
      let (written, outcome) := writeLimited (capacity - piece.length) pieces
      (piece ++ written, outcome)
    else
      (piece.take capacity, .error .sinkFull)

namespace Dictionary

/-- The stored form of a dictionary. -/
def encode (d : Dictionary) : Except Fault (List UInt8) :=
  d.built.map (·.encode)

/-- What a sink that takes so many bytes holds after the dictionary was written to it, and whether
the whole dictionary fitted. -/
def encodeLimited (d : Dictionary) (capacity : Nat) : List UInt8 × Except Fault Unit :=
  match d.cascade with
  | none => ([], .error .notBuilt)
  | some c => writeLimited capacity c.pieces

end Dictionary

end Lexicon
