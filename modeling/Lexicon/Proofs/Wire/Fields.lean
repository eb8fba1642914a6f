/-
Lexicon.Proofs.Wire.Fields — the parts of a level are read back as they were written.

For every kind of part there is what a vector must satisfy to be stored (`Storable`): that
its counts fit the fields that hold them, and that the cross-checks of the reader hold of
it. A part that is storable is read back as it was (`readsAt_bitVector`,
`readsAt_packedVector`, `readsAt_tail`, `ofWord_word` for the configuration), and takes a
multiple of eight bytes, so the next one is aligned again.
-/
import Lexicon.Proofs.Wire.Reading
import Lexicon.Proofs.Bits.Packing

namespace Lexicon

namespace Wire

variable {σ : Type} [ByteSource σ] [LawfulSource σ] {position : Nat}

/-! ## Arrays -/

theorem readsAt_words {words : Array Word} (hposition : 8 ∣ position)
    (hsize : 8 * words.size < 2 ^ 64) :
    ReadsAt position (readWords : Reader σ (Array Word))
      (blobPieces (bytes64 words.toList)).flatten words := by
  refine readsAt_records words.toList hposition (Nat.dvd_refl 8) (by decide) hsize
    (fun w => length_littleEndian 8 w.toNat) ?_
  intro w
  rw [ofLittleEndian_littleEndian w.toNat_lt]
  exact UInt64.ofNat_toNat

theorem ofLittleEndian_toUInt32 (n : UInt32) :
    (ofLittleEndian (littleEndian 4 n.toNat)).toUInt32 = n := by
  rw [ofLittleEndian_littleEndian n.toNat_lt]
  exact UInt32.ofNat_toNat

theorem readsAt_numbers {numbers : Array UInt32} (hposition : 8 ∣ position)
    (hsize : 4 * numbers.size < 2 ^ 64) :
    ReadsAt position (readNumbers : Reader σ (Array UInt32))
      (blobPieces (bytes32 numbers.toList)).flatten numbers :=
  readsAt_records numbers.toList hposition (by decide) (by decide) hsize
    (fun n => length_littleEndian 4 n.toNat) ofLittleEndian_toUInt32

theorem length_bytes32 (numbers : List UInt32) : (bytes32 numbers).length = 4 * numbers.length :=
  length_flatMap_of_length (fun n : UInt32 => length_littleEndian 4 n.toNat) numbers

/-- Three numbers are found again in their bytes. -/
theorem triple_bytes32 (a b c : UInt32) : triple (bytes32 [a, b, c]) = (a, b, c) := by
  have hbytes : bytes32 [a, b, c]
      = littleEndian 4 a.toNat ++ (littleEndian 4 b.toNat ++ littleEndian 4 c.toNat) := by
    simp [bytes32]
  have hfirst (n : UInt32) (more : List UInt8) : (littleEndian 4 n.toNat ++ more).take 4
      = littleEndian 4 n.toNat := List.take_left' (length_littleEndian 4 n.toNat)
  have hrest (n : UInt32) (more : List UInt8) : (littleEndian 4 n.toNat ++ more).drop 4 = more :=
    List.drop_left' (length_littleEndian 4 n.toNat)
  have hlast : (bytes32 [a, b, c]).drop 8 = littleEndian 4 c.toNat := by
    rw [hbytes, show 8 = 4 + 4 from rfl, ← List.drop_drop, hrest, hrest]
  unfold triple
  dsimp only
  rw [hlast, hbytes, List.drop_zero, hfirst, hrest, hfirst, List.take_of_length_le (by simp)]
  simp only [ofLittleEndian_toUInt32]

/-- The bytes of the numbers of some records are the bytes of each record in turn. -/
theorem bytes32_flatMap {α : Type} (fields : α → List UInt32) (items : List α) :
    bytes32 (items.flatMap fields) = items.flatMap fun x => bytes32 (fields x) :=
  List.flatMap_assoc

theorem readsAt_ranks {ranks : Array RankRecord} (hposition : 8 ∣ position)
    (hsize : 12 * ranks.size < 2 ^ 64) :
    ReadsAt position (readRanks : Reader σ (Array RankRecord))
      (blobPieces (bytes32 (ranks.toList.flatMap (·.fields)))).flatten ranks := by
  rw [bytes32_flatMap]
  refine readsAt_records ranks.toList hposition (by decide) (by decide) hsize
    (fun r => length_bytes32 r.fields) ?_
  intro r
  simp only [RankRecord.fields, triple_bytes32]

theorem readsAt_slots {slots : Array Slot} (hposition : 8 ∣ position)
    (hsize : 12 * slots.size < 2 ^ 64) :
    ReadsAt position (readSlots : Reader σ (Array Slot))
      (blobPieces (bytes32 (slots.toList.flatMap (·.fields)))).flatten slots := by
  rw [bytes32_flatMap]
  refine readsAt_records slots.toList hposition (by decide) (by decide) hsize
    (fun s => length_bytes32 s.fields) ?_
  intro s
  simp only [Slot.fields, triple_bytes32]

end Wire

/-! ## Bit vectors -/

/-- The counts of a bit vector fit together and into their fields. -/
structure BitVector.Storable (v : BitVector) : Prop where
  size_lt : v.size < 2 ^ 32
  ones_le : v.ones ≤ v.size
  words : v.words.size = blocksOf 64 v.size
  ranks : v.ranks.size = blocksOf 512 v.size + 1 ∨ (v.size = 0 ∧ v.ranks.size = 0)
  zeroSamples_lt : 4 * v.zeroSamples.size < 2 ^ 64
  oneSamples_lt : 4 * v.oneSamples.size < 2 ^ 64

/-- The values of a packed vector fit into its words, and its counts into their fields. -/
structure PackedVector.Storable (v : PackedVector) : Prop where
  width_le : v.width ≤ 32
  size_lt : v.size < 2 ^ 64
  words_lt : 8 * v.words.size < 2 ^ 64
  bits_lt : v.width * v.size < 2 ^ 64
  values : v.width * v.size ≤ 64 * v.words.size
  words_ne : v.size = 0 ∨ v.words.size ≠ 0

/-- The strings of a tail are ended: by one flag for each byte, or by a NUL byte. -/
structure Tail.Storable (t : Tail) : Prop where
  size_lt : t.bytes.size < 2 ^ 64
  endFlags : t.endFlags.Storable
  flagged : t.endFlags.size = 0 ∨ t.endFlags.size = t.bytes.size
  terminated : t.endFlags.size ≠ 0 ∨ t.bytes.size = 0 ∨ t.bytes.back? = some 0

namespace Wire

variable {σ : Type} [ByteSource σ] [LawfulSource σ] {position : Nat}

theorem readsAt_bitVector {v : BitVector} (h : v.Storable) (hposition : 8 ∣ position) :
    ReadsAt position (readBitVector : Reader σ BitVector) v.pieces.flatten v := by
  have hsize := h.size_lt
  have hones := h.ones_le
  have hblocks : v.words.size ≤ v.size := by
    rw [h.words]
    unfold blocksOf
    omega
  have hranks : v.ranks.size ≤ v.size + 1 := by
    have hrecords := h.ranks
    unfold blocksOf at hrecords
    omega
  have hpieces : v.pieces.flatten = (blobPieces (bytes64 v.words.toList)).flatten
      ++ (littleEndian 4 v.size ++ (littleEndian 4 v.ones
        ++ ((blobPieces (bytes32 (v.ranks.toList.flatMap (·.fields)))).flatten
          ++ ((blobPieces (bytes32 v.zeroSamples.toList)).flatten
            ++ (blobPieces (bytes32 v.oneSamples.toList)).flatten)))) := by
    simp [BitVector.pieces]
  rw [hpieces]
  refine (readsAt_words hposition (by omega)).bind ?_
  refine (readsAt_number (by omega)).bind ?_
  refine (readsAt_number (by omega)).bind ?_
  refine ReadsAt.require h.ones_le ?_
  refine ReadsAt.require h.words ?_
  have hwords := dvd_length_blob (bytes64 v.words.toList)
  have hrecords := dvd_length_blob (bytes32 (v.ranks.toList.flatMap (·.fields)))
  have hzeros := dvd_length_blob (bytes32 v.zeroSamples.toList)
  simp only [length_littleEndian]
  refine (readsAt_ranks (by omega) (by omega)).bind ?_
  refine ReadsAt.require h.ranks ?_
  refine (readsAt_numbers (by omega) h.zeroSamples_lt).bind ?_
  exact (readsAt_numbers (by omega) h.oneSamples_lt).bind_pure _

theorem dvd_length_bitVector (v : BitVector) : 8 ∣ v.pieces.flatten.length := by
  have hwords := dvd_length_blob (bytes64 v.words.toList)
  have hrecords := dvd_length_blob (bytes32 (v.ranks.toList.flatMap (·.fields)))
  have hzeros := dvd_length_blob (bytes32 v.zeroSamples.toList)
  have hones := dvd_length_blob (bytes32 v.oneSamples.toList)
  simp only [BitVector.pieces, List.flatten_append, List.length_append, List.flatten_cons,
    List.flatten_nil, length_littleEndian, List.length_nil]
  omega

theorem readsAt_packedVector {v : PackedVector} (h : v.Storable) (hposition : 8 ∣ position) :
    ReadsAt position (readPackedVector : Reader σ PackedVector) v.pieces.flatten v := by
  have hwidth := h.width_le
  have hmask := (PackedVector.maskOf v.width).toNat_lt
  have hbits := h.bits_lt
  have hpieces : v.pieces.flatten = (blobPieces (bytes64 v.words.toList)).flatten
      ++ (littleEndian 4 v.width ++ (littleEndian 4 (PackedVector.maskOf v.width).toNat
        ++ littleEndian 8 v.size)) := by
    simp [PackedVector.pieces]
  rw [hpieces]
  refine (readsAt_words hposition h.words_lt).bind ?_
  refine (readsAt_number (by omega)).bind ?_
  refine ReadsAt.require h.width_le ?_
  refine (readsAt_number (by omega)).bind ?_
  refine ReadsAt.require rfl ?_
  rw [← List.append_nil (littleEndian 8 v.size)]
  refine (readsAt_number h.size_lt).bind ?_
  rw [if_neg (by omega)]
  exact ReadsAt.require ⟨h.values, h.words_ne⟩ (ReadsAt.pure _)

theorem dvd_length_packedVector (v : PackedVector) : 8 ∣ v.pieces.flatten.length := by
  have hwords := dvd_length_blob (bytes64 v.words.toList)
  simp only [PackedVector.pieces, List.flatten_append, List.length_append, List.flatten_cons,
    List.flatten_nil, length_littleEndian, List.length_nil]
  omega

theorem readsAt_tail {t : Tail} (h : t.Storable) (hposition : 8 ∣ position) :
    ReadsAt position (readTail : Reader σ Tail) t.pieces.flatten t := by
  have hpieces : t.pieces.flatten
      = (blobPieces t.bytes.toList).flatten ++ (t.endFlags.pieces.flatten ++ []) := by
    simp [Tail.pieces]
  have hbytes := dvd_length_blob t.bytes.toList
  rw [hpieces]
  refine (readsAt_bytes h.size_lt).bind ?_
  refine (readsAt_bitVector h.endFlags (by omega)).bind ?_
  refine ReadsAt.require h.flagged ?_
  exact ReadsAt.require h.terminated (ReadsAt.pure _)

theorem dvd_length_tail (t : Tail) : 8 ∣ t.pieces.flatten.length := by
  have hbytes := dvd_length_blob t.bytes.toList
  have hflags := dvd_length_bitVector t.endFlags
  simp only [Tail.pieces, List.flatten_append, List.length_append]
  omega

end Wire

/-! ## The configuration -/

namespace Config

theorem or_and_distrib (a b mask : UInt32) :
    (a ||| b) &&& mask = (a &&& mask) ||| (b &&& mask) := by
  apply UInt32.toNat_inj.mp
  simp only [UInt32.toNat_and, UInt32.toNat_or, Nat.and_or_distrib_right]

/-- The part of a word under a mask is made of the parts of its four fields. -/
theorem word_and (c : Config) (mask : UInt32) : c.word &&& mask
    = (c.levels.toUInt32 &&& (0x7F &&& mask)) ||| (c.cache.flag &&& mask)
      ||| (c.tail.flag &&& mask) ||| (c.order.flag &&& mask) := by
  simp only [word, or_and_distrib, UInt32.and_assoc]

theorem word_and_unused (c : Config) : c.word &&& 0xFFF00000 = 0 := by
  have hlevels : (0x7F : UInt32) &&& 0xFFF00000 = 0 := rfl
  rw [word_and, hlevels, UInt32.and_zero, UInt32.zero_or]
  cases c.cache <;> cases c.tail <;> cases c.order <;> rfl

theorem word_and_levels (c : Config) : c.word &&& 0x7F = c.levels.toUInt32 &&& 0x7F := by
  have hcache : c.cache.flag &&& 0x7F = 0 := by cases c.cache <;> rfl
  have htail : c.tail.flag &&& 0x7F = 0 := by cases c.tail <;> rfl
  have horder : c.order.flag &&& 0x7F = 0 := by cases c.order <;> rfl
  rw [word_and, UInt32.and_self, hcache, htail, horder, UInt32.or_zero, UInt32.or_zero,
    UInt32.or_zero]

theorem word_and_cache (c : Config) : c.word &&& 0xF80 = c.cache.flag := by
  have hlevels : (0x7F : UInt32) &&& 0xF80 = 0 := rfl
  rw [word_and, hlevels, UInt32.and_zero, UInt32.zero_or]
  cases c.cache <;> cases c.tail <;> cases c.order <;> rfl

theorem word_and_tail (c : Config) : c.word &&& 0xF000 = c.tail.flag := by
  have hlevels : (0x7F : UInt32) &&& 0xF000 = 0 := rfl
  rw [word_and, hlevels, UInt32.and_zero, UInt32.zero_or]
  cases c.cache <;> cases c.tail <;> cases c.order <;> rfl

theorem word_and_order (c : Config) : c.word &&& 0xF0000 = c.order.flag := by
  have hlevels : (0x7F : UInt32) &&& 0xF0000 = 0 := rfl
  rw [word_and, hlevels, UInt32.and_zero, UInt32.zero_or]
  cases c.cache <;> cases c.tail <;> cases c.order <;> rfl

/-- A number of levels that is valid fits its field. -/
theorem toNat_levels {c : Config} (h : c.Valid) :
    (c.levels.toUInt32 &&& 0x7F).toNat = c.levels := by
  have hlt : c.levels < 128 := Nat.lt_succ_of_le h.2
  rw [UInt32.toNat_and, Nat.toUInt32_eq, UInt32.toNat_ofNat', Nat.mod_eq_of_lt (by omega)]
  exact (Nat.and_two_pow_sub_one_eq_mod c.levels 7).trans (Nat.mod_eq_of_lt hlt)

/-- The word of a configuration that is valid tells all of it. -/
theorem ofWord_word {c : Config} (h : c.Valid) : ofWord c.word = .ok c := by
  have hcache : CacheSize.ofFlag c.cache.flag = some c.cache := by cases c.cache <;> rfl
  have htail : TailMode.ofFlag c.tail.flag = some c.tail := by cases c.tail <;> rfl
  have horder : SiblingOrder.ofFlag c.order.flag = some c.order := by cases c.order <;> rfl
  have hne : c.levels ≠ 0 := Nat.ne_of_gt h.1
  have hword : ofWord? c.word = some c := by
    unfold ofWord?
    rw [word_and_unused, if_neg (by decide), word_and_levels, word_and_cache, word_and_tail,
      word_and_order, toNat_levels h, hcache, htail, horder]
    simp only [Option.bind_eq_bind, Option.bind_some, if_neg hne]
  rw [ofWord, hword]
  rfl

end Config

end Lexicon
