/-
Lexicon.Proofs.Wire.Leeway — where the stored form of a dictionary may be written otherwise.

Reading a stored dictionary passes over the bytes behind a blob without a look at them, and
takes a field of a configuration word that is zero for the default. Everything else is
either checked or kept. `Cascade.stretches` cuts the stored form into `Stretch`es that say
which bytes have this leeway, and `Stored` says that some bytes are the stored form up to
it. Written without using it the stretches are the stored form (`Cascade.flatMap_written`),
and they are as long whichever way they are written (`Stored.length_eq`), which is the size
that a dictionary tells of itself (`Cascade.length_encode`).
-/
import Lexicon.Proofs.Wire.Levels

namespace Lexicon

namespace Config

/-- The bits of each field of a configuration word: levels, cache, tail, order. -/
def fieldMasks : List UInt32 :=
  [0x7F, 0xF80, 0xF000, 0xF0000]

/-- A word says a configuration: each field is that of the configuration's own word, or it is zero
where the configuration has the default. -/
def SaidBy (c : Config) (word : UInt32) : Prop :=
  word &&& 0xFFF00000 = 0 ∧ ∀ mask ∈ fieldMasks, word &&& mask = c.word &&& mask
    ∨ (word &&& mask = 0 ∧ c.word &&& mask = ({} : Config).word &&& mask)

end Config

/-! ## Stretches -/

/-- Some consecutive bytes of the stored form. -/
inductive Stretch
  /-- Just these bytes. -/
  | fixed (bytes : List UInt8)
  /-- So many bytes behind a blob. -/
  | padding (count : Nat)
  /-- The word of a configuration. -/
  | code (config : Config)

namespace Stretch

/-- What is written for a stretch. -/
def written : Stretch → List UInt8
  | fixed bytes => bytes
  | padding count => List.replicate count 0
  | code config => littleEndian 4 config.word.toNat

/-- What may stand for a stretch. -/
inductive Admits : Stretch → List UInt8 → Prop
  | fixed (bytes : List UInt8) : Admits (fixed bytes) bytes
  | padding (bytes : List UInt8) : Admits (padding bytes.length) bytes
  | code {config : Config} {word : UInt32} : config.SaidBy word →
    Admits (code config) (littleEndian 4 word.toNat)

/-- What may stand for a stretch is as long as what is written. -/
theorem Admits.length_eq {stretch : Stretch} {bytes : List UInt8} (h : stretch.Admits bytes) :
    bytes.length = stretch.written.length := by
  cases h with
  | fixed => rfl
  | padding => exact List.length_replicate.symm
  | code => rw [written, length_littleEndian, length_littleEndian]

end Stretch

/-- The bytes are what may stand for some stretches, one after the other. -/
inductive Stored : List Stretch → List UInt8 → Prop
  | nil : Stored [] []
  | cons {stretch : Stretch} {stretches : List Stretch} {bytes more : List UInt8} :
    stretch.Admits bytes → Stored stretches more → Stored (stretch :: stretches) (bytes ++ more)

namespace Stored

variable {stretch : Stretch} {stretches others : List Stretch} {bytes more : List UInt8}

theorem single (h : stretch.Admits bytes) : Stored [stretch] bytes := by
  have hcons := cons h nil
  rwa [List.append_nil] at hcons

theorem append (h : Stored stretches bytes) (hmore : Stored others more) :
    Stored (stretches ++ others) (bytes ++ more) := by
  induction h with
  | nil => exact hmore
  | cons hfirst _ ih =>
    rw [List.cons_append, List.append_assoc]
    exact cons hfirst ih

theorem length_eq (h : Stored stretches bytes) :
    bytes.length = (stretches.flatMap Stretch.written).length := by
  induction h with
  | nil => rfl
  | cons hfirst _ ih =>
    rw [List.length_append, List.flatMap_cons, List.length_append, hfirst.length_eq, ih]

end Stored

/-! ## The stretches of each part -/

/-- The stretch of a number. -/
def numberStretch (count n : Nat) : List Stretch :=
  [.fixed (littleEndian count n)]

/-- The stretches of a blob. -/
def blobStretches (bytes : List UInt8) : List Stretch :=
  [.fixed (littleEndian 8 bytes.length), .fixed bytes, .padding (padding bytes.length)]

/-- The stretches of a bit vector. -/
def BitVector.stretches (v : BitVector) : List Stretch :=
  blobStretches (bytes64 v.words.toList) ++ (numberStretch 4 v.size ++ (numberStretch 4 v.ones
    ++ (blobStretches (bytes32 (v.ranks.toList.flatMap (·.fields)))
      ++ (blobStretches (bytes32 v.zeroSamples.toList)
        ++ blobStretches (bytes32 v.oneSamples.toList)))))

/-- The stretches of a packed vector. -/
def PackedVector.stretches (v : PackedVector) : List Stretch :=
  blobStretches (bytes64 v.words.toList) ++ (numberStretch 4 v.width
    ++ (numberStretch 4 (PackedVector.maskOf v.width).toNat ++ numberStretch 8 v.size))

/-- The stretches of a tail. -/
def Tail.stretches (t : Tail) : List Stretch :=
  blobStretches t.bytes.toList ++ t.endFlags.stretches

namespace Level

/-- The stretches of a level that stand before the next level. -/
def frontStretches (l : Level) : List Stretch :=
  l.louds.stretches ++ (l.terminals.stretches ++ (l.links.stretches
    ++ (blobStretches l.bases.toList ++ (l.extras.stretches ++ l.tail.stretches))))

/-- The stretches of a level that stand after the next level. -/
def backStretches (l : Level) : List Stretch :=
  blobStretches (bytes32 (l.cache.toList.flatMap (·.fields)))
    ++ (numberStretch 4 l.rootDegree ++ [.code l.config])

end Level

namespace Cascade

/-- The stretches of a level and of those below it. -/
def levelStretches (level : Level) : List Level → List Stretch
  | [] => level.frontStretches ++ level.backStretches
  | next :: deeper => level.frontStretches ++ (levelStretches next deeper ++ level.backStretches)

/-- The stretches of the stored form. -/
def stretches (c : Cascade) : List Stretch :=
  .fixed header :: levelStretches c.top c.deeper

end Cascade

/-! ## Writing the stretches -/

theorem BitVector.map_written (v : BitVector) : v.stretches.map Stretch.written = v.pieces := rfl

theorem PackedVector.map_written (v : PackedVector) :
    v.stretches.map Stretch.written = v.pieces := rfl

theorem Tail.map_written (t : Tail) : t.stretches.map Stretch.written = t.pieces := rfl

theorem Level.map_written_front (l : Level) :
    l.frontStretches.map Stretch.written = l.frontPieces := rfl

theorem Level.map_written_back (l : Level) :
    l.backStretches.map Stretch.written = l.backPieces := rfl

namespace Cascade

theorem map_written_levels : ∀ (level : Level) (deeper : List Level),
    (levelStretches level deeper).map Stretch.written = levelPieces level deeper
  | level, [] => by
      rw [levelStretches, List.map_append, Level.map_written_front, Level.map_written_back,
        levelPieces]
  | level, next :: deeper => by
      rw [levelStretches, List.map_append, List.map_append, Level.map_written_front,
        Level.map_written_back, map_written_levels next deeper, levelPieces, List.append_assoc]

/-- Written without using the leeway, the stretches are the stored form. -/
theorem flatMap_written (c : Cascade) : c.stretches.flatMap Stretch.written = c.encode := by
  rw [List.flatMap_def, stretches, List.map_cons, map_written_levels]
  rfl

end Cascade

/-! ## Sizes -/

theorem length_bytes64 (words : List Word) : (bytes64 words).length = 8 * words.length :=
  length_flatMap_of_length (fun w : Word => length_littleEndian 8 w.toNat) words

/-- Records of three numbers take twelve bytes each. -/
theorem length_bytes32_flatMap {α : Type} {fields : α → List UInt32}
    (h : ∀ x, (fields x).length = 3) (items : List α) :
    (bytes32 (items.flatMap fields)).length = 12 * items.length := by
  rw [Wire.bytes32_flatMap]
  exact length_flatMap_of_length (fun x => by rw [Wire.length_bytes32, h]) items

theorem BitVector.length_pieces (v : BitVector) : v.pieces.flatten.length = v.wireSize := by
  have hranks : (bytes32 (v.ranks.toList.flatMap (·.fields))).length = 12 * v.ranks.toList.length :=
    length_bytes32_flatMap (fun _ => rfl) v.ranks.toList
  simp only [pieces, wireSize, List.flatten_append, List.length_append, Wire.length_blob, hranks,
    length_bytes64, Wire.length_bytes32 v.zeroSamples.toList,
    Wire.length_bytes32 v.oneSamples.toList, List.flatten_cons, List.flatten_nil,
    length_littleEndian, List.length_nil, Array.length_toList]

theorem PackedVector.length_pieces (v : PackedVector) : v.pieces.flatten.length = v.wireSize := by
  simp only [pieces, wireSize, List.flatten_append, List.length_append, Wire.length_blob,
    length_bytes64, List.flatten_cons, List.flatten_nil, length_littleEndian, List.length_nil,
    Array.length_toList]

theorem Tail.length_pieces (t : Tail) : t.pieces.flatten.length = t.wireSize := by
  rw [pieces, wireSize, List.flatten_append, List.length_append, Wire.length_blob,
    BitVector.length_pieces, Array.length_toList]

theorem Level.length_pieces (l : Level) :
    l.frontPieces.flatten.length + l.backPieces.flatten.length = l.wireSize := by
  have hslots : (bytes32 (l.cache.toList.flatMap (·.fields))).length = 12 * l.cache.toList.length :=
    length_bytes32_flatMap (fun _ => rfl) l.cache.toList
  simp only [frontPieces, backPieces, wireSize, List.flatten_append, List.length_append,
    BitVector.length_pieces, PackedVector.length_pieces, Tail.length_pieces, Wire.length_blob,
    hslots, List.flatten_cons, List.flatten_nil, length_littleEndian, List.length_nil,
    Array.length_toList]
  omega

namespace Cascade

theorem length_levelPieces : ∀ (level : Level) (deeper : List Level),
    (levelPieces level deeper).flatten.length = sumOf ((level :: deeper).map (·.wireSize))
  | level, [] => by
      rw [levelPieces, List.flatten_append, List.length_append, Level.length_pieces]
      rfl
  | level, next :: deeper => by
      have ih := length_levelPieces next deeper
      have hlevel := Level.length_pieces level
      rw [Wire.flatten_levelPieces_cons, List.length_append, List.length_append, ih]
      show _ = level.wireSize + sumOf ((next :: deeper).map (·.wireSize))
      omega

/-- The stored form is as long as the levels tell. -/
theorem length_encode (c : Cascade) : c.encode.length = c.wireSize := by
  have hheader : header.length = 16 := by decide
  rw [encode, pieces, List.flatten_cons, List.length_append, hheader, length_levelPieces]
  rfl

end Cascade

end Lexicon
