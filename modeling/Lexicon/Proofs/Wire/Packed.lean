/-
Lexicon.Proofs.Wire.Packed — packing loses nothing and takes no more bits than it needs.

The width of a packed vector is the bit length of its largest value (`widthOf_eq_size`).
`PackedVector.ofList_lossless` puts together what holds of every list of values: the width
and the number of words, that storing and reading stay within the words, that every value
is found again, and that the stored form gives back the vector from a stream and from memory.
-/
import Mathlib.Data.Nat.Size
import Lexicon.Proofs.Wire.Storing

namespace Lexicon

/-- The bit length counts the binary digits. -/
theorem bitLength_eq_size (n : Nat) : bitLength n = Nat.size n :=
  Nat.le_antisymm (bitLength_le (Nat.lt_size_self n)) (Nat.size_le.mpr (lt_two_pow_bitLength n))

/-- Looking for the greatest value of a list from zero on finds it. -/
theorem foldl_max_eq {α : Type} (f : α → Nat) (xs : List α) :
    xs.foldl (fun m x => max m (f x)) 0 = (xs.map f).max?.getD 0 := by
  rw [← List.foldl_map]
  cases xs.map f with
  | nil => rfl
  | cons n ns => rw [List.foldl_cons, List.max?_cons', Nat.zero_max, Option.getD_some]

namespace PackedVector

/-- Values are packed at the bit length of the largest one. -/
theorem widthOf_eq_size (values : List UInt32) :
    widthOf values = Nat.size ((values.map (·.toNat)).max?.getD 0) := by
  rw [widthOf, bitLength_eq_size, foldl_max_eq]

/-- Only zeros take no bits. -/
theorem widthOf_eq_zero_iff {values : List UInt32} :
    widthOf values = 0 ↔ ∀ v ∈ values, v = 0 := by
  constructor
  · intro hwidth v hv
    have hlt := lt_two_pow_widthOf hv
    rw [hwidth, Nat.pow_zero] at hlt
    exact UInt32.toNat_inj.mp (Nat.lt_one_iff.mp hlt)
  · intro hzero
    have hmax := foldl_max_lt (m := 0) UInt32.toNat (by decide : 0 < 2 ^ 0) fun v hv => by
      rw [hzero v hv]
      decide
    exact Nat.le_zero.mp (bitLength_le hmax)

/-- Every value is found under its index, and there are no others. -/
theorem get_ofList (values : List UInt32) (i : Nat) : (ofList values).get i
    = if h : i < values.length then .ok values[i] else .error (.outOfBounds i values.length) := by
  rw [get, size_ofList]
  by_cases hi : i < values.length
  · rw [if_pos hi, dif_pos hi, get?_ofList (List.getElem?_eq_getElem hi)]
    rfl
  · rw [if_neg hi, dif_neg hi]

variable {values : List UInt32}

/-- A stream that goes on with the stored form gives back the vector, however its chunks are cut. -/
theorem read_pieces_stream (hlength : values.length < 2 ^ 64)
    (hbits : (ofList values).width * values.length < 2 ^ 64) {chunks : List (List UInt8)}
    {rest : List UInt8} (hchunks : chunks.flatten = (ofList values).pieces.flatten ++ rest) :
    ∃ left, (Wire.readPackedVector : Wire.Reader Stream PackedVector).run ⟨chunks⟩
        = .ok (ofList values, left) ∧ left.chunks.flatten = rest := by
  have hreads : Wire.ReadsAt 0 (Wire.readPackedVector : Wire.Reader Stream PackedVector)
      (ofList values).pieces.flatten (ofList values) :=
    Wire.readsAt_packedVector (storable_ofList hlength hbits) (Nat.dvd_zero 8)
  exact hreads ⟨chunks⟩ rest hchunks

/-- A region that goes on with the stored form at an aligned offset gives back the vector. -/
theorem read_pieces_region (hlength : values.length < 2 ^ 64)
    (hbits : (ofList values).width * values.length < 2 ^ 64) {front : List UInt8}
    (hfront : 8 ∣ front.length) (rest : List UInt8) :
    ∃ left, (Wire.readPackedVector : Wire.Reader Region PackedVector).run
          ⟨(front ++ ((ofList values).pieces.flatten ++ rest)).toArray, front.length⟩
        = .ok (ofList values, left)
      ∧ left.offset = front.length + (ofList values).pieces.flatten.length
      ∧ left.bytes.toList.drop left.offset = rest := by
  have hreads : Wire.ReadsAt front.length
      (Wire.readPackedVector : Wire.Reader Region PackedVector) (ofList values).pieces.flatten
      (ofList values) :=
    Wire.readsAt_packedVector (storable_ofList hlength hbits) hfront
  exact hreads ⟨_, front.length⟩ rest ⟨rfl, List.drop_left⟩

/-- Packing is lossless and minimal, for every list of values: each takes as many bits as the
largest one needs, and all together as few words as have room for them, or one word for zeros alone.
They are or-ed into place without leaving the words, and each index below the length gives its
value. Where the counts fit into 64 bits, the stored form is read back as the same vector. -/
theorem ofList_lossless (values : List UInt32) :
    (ofList values).width = Nat.size ((values.map (·.toNat)).max?.getD 0)
      ∧ ((ofList values).width = 0 ↔ ∀ v ∈ values, v = 0)
      ∧ (ofList values).words.size = (if (ofList values).width = 0 ∧ values ≠ [] then 1
          else ((ofList values).width * values.length + 63) / 64)
      ∧ fill? (ofList values).width values = some (ofList values).words
      ∧ (∀ i, (ofList values).get i = if h : i < values.length then .ok values[i]
          else .error (.outOfBounds i values.length))
      ∧ (values.length < 2 ^ 64 → (ofList values).width * values.length < 2 ^ 64 →
        (∀ (chunks : List (List UInt8)) (rest : List UInt8),
          chunks.flatten = (ofList values).pieces.flatten ++ rest →
          ∃ left, (Wire.readPackedVector : Wire.Reader Stream PackedVector).run ⟨chunks⟩
              = .ok (ofList values, left) ∧ left.chunks.flatten = rest)
        ∧ ∀ front rest : List UInt8, 8 ∣ front.length →
          ∃ left, (Wire.readPackedVector : Wire.Reader Region PackedVector).run
                ⟨(front ++ ((ofList values).pieces.flatten ++ rest)).toArray, front.length⟩
              = .ok (ofList values, left)
            ∧ left.offset = front.length + (ofList values).pieces.flatten.length
            ∧ left.bytes.toList.drop left.offset = rest) := by
  refine ⟨widthOf_eq_size values, widthOf_eq_zero_iff, size_words_ofList values, fill?_eq values,
    get_ofList values, ?_⟩
  intro hlength hbits
  exact ⟨fun _ _ hchunks => read_pieces_stream hlength hbits hchunks,
    fun _ rest hfront => read_pieces_region hlength hbits hfront rest⟩

/-- At a width of 31 bits the third value lies across two words; it is found there, and again in
what is read from a stream that hands out the stored form piece by piece. -/
theorem ofList_lossless_across : (ofList [0x40000000, 1, 0x7FFFFFFF]).words.size = 2
    ∧ (ofList [0x40000000, 1, 0x7FFFFFFF]).get 2 = .ok 0x7FFFFFFF
    ∧ ∃ left, (Wire.readPackedVector : Wire.Reader Stream PackedVector).run
          ⟨(ofList [0x40000000, 1, 0x7FFFFFFF]).pieces⟩
        = .ok (ofList [0x40000000, 1, 0x7FFFFFFF], left) ∧ left.chunks.flatten = [] := by
  obtain ⟨_, _, hwords, _, hget, hround⟩ := ofList_lossless [0x40000000, 1, 0x7FFFFFFF]
  obtain ⟨hstream, _⟩ := hround (by decide) (by decide)
  exact ⟨hwords.trans (by decide), hget 2, hstream _ [] (List.append_nil _).symm⟩

end PackedVector

end Lexicon
