/-
Lexicon.Proofs.Wire.Reading — readers give back what was written, whatever they read from.

A source is lawful if it hands out the bytes that it holds, and as records too where the
alignment fits (`LawfulSource`); streams are, however they are cut into chunks, and so are
regions. `Wire.ReadsAt` says that a reader which finds certain bytes at a position takes
just these and gives a certain value, whatever comes after them. It is proved of a reader
from its parts (`ReadsAt.bind`), so everything built on it holds of streams and regions
alike. This module ends with numbers and blobs, of which all fields are made.
-/
import Lexicon.Wire.Decode
import Mathlib.Algebra.Ring.Nat

namespace Lexicon

/-! ## Sources -/

/-- A source that hands out what it holds. -/
class LawfulSource (σ : Type) [ByteSource σ] where
  /-- The source stands at a position, with the given bytes to come. -/
  Holds : σ → (position : Nat) → List UInt8 → Prop
  take_append : ∀ {source : σ} {position : Nat} {bytes rest : List UInt8},
    Holds source position (bytes ++ rest) → ∃ source',
      ByteSource.take bytes.length source = .ok (bytes, source')
      ∧ Holds source' (position + bytes.length) rest
  takeRecords_append : ∀ {source : σ} {position alignment : Nat} {bytes rest : List UInt8},
    Holds source position (bytes ++ rest) → alignment ∣ position → ∃ source',
      ByteSource.takeRecords alignment bytes.length source = .ok (bytes, source')
      ∧ Holds source' (position + bytes.length) rest

namespace Stream

/-- The bytes are collected chunk by chunk. -/
theorem takeChunks_append : ∀ {chunks : List (List UInt8)} {bytes rest : List UInt8}
    (taken : List (List UInt8)), chunks.flatten = bytes ++ rest →
    ∃ chunks', takeChunks bytes.length chunks taken = some (taken.reverse.flatten ++ bytes, chunks')
      ∧ chunks'.flatten = rest
  | chunks, [], rest, taken, h => ⟨chunks, by simp [takeChunks], h⟩
  | [], b :: bytes, rest, taken, h => by simp at h
  | chunk :: chunks, b :: bytes, rest, taken, h => by
      rw [List.flatten_cons] at h
      rw [List.length_cons, takeChunks]
      by_cases hlength : bytes.length + 1 ≤ chunk.length
      · have htake : chunk.take (bytes.length + 1) = b :: bytes := by
          have hfront := congrArg (List.take (bytes.length + 1)) h
          rwa [List.take_append_of_le_length hlength, List.take_left' List.length_cons] at hfront
        have hdrop : chunk.drop (bytes.length + 1) ++ chunks.flatten = rest := by
          have hback := congrArg (List.drop (bytes.length + 1)) h
          rwa [List.drop_append_of_le_length hlength, List.drop_left' List.length_cons] at hback
        refine ⟨chunk.drop (bytes.length + 1) :: chunks, ?_, hdrop⟩
        simp [htake]
      · have hlt : chunk.length < bytes.length + 1 := Nat.lt_of_not_le hlength
        obtain ⟨more, hmore⟩ : chunk <+: b :: bytes :=
          List.prefix_of_prefix_length_le ⟨chunks.flatten, h⟩ (List.prefix_append _ _)
            (by rw [List.length_cons]; omega)
        have hchunks : chunks.flatten = more ++ rest := by
          rw [← hmore, List.append_assoc] at h
          exact List.append_cancel_left h
        have hmissing : bytes.length + 1 - chunk.length = more.length := by
          have hboth := congrArg List.length hmore
          rw [List.length_append, List.length_cons] at hboth
          omega
        obtain ⟨chunks', htaken, hrest⟩ := takeChunks_append (chunk :: taken) hchunks
        refine ⟨chunks', ?_, hrest⟩
        have hne : more.length ≠ 0 := by omega
        simp [List.take_of_length_le (Nat.le_of_lt hlt), hmissing, hne, htaken, ← hmore]

instance : LawfulSource Stream where
  Holds source _ bytes := source.chunks.flatten = bytes
  take_append := by
    intro source position bytes rest h
    obtain ⟨chunks', htake, hrest⟩ := takeChunks_append [] h
    refine ⟨⟨chunks'⟩, ?_, hrest⟩
    show take bytes.length source = _
    rw [take, htake]
    rfl
  takeRecords_append := by
    intro source position alignment bytes rest h _
    obtain ⟨chunks', htake, hrest⟩ := takeChunks_append [] h
    refine ⟨⟨chunks'⟩, ?_, hrest⟩
    show take bytes.length source = _
    rw [take, htake]
    rfl

end Stream

namespace Region

theorem take_append {r : Region} {bytes rest : List UInt8}
    (h : r.bytes.toList.drop r.offset = bytes ++ rest) :
    r.take bytes.length = .ok (bytes, { r with offset := r.offset + bytes.length })
      ∧ r.bytes.toList.drop (r.offset + bytes.length) = rest := by
  have hlength := congrArg List.length h
  rw [List.length_drop, Array.length_toList, List.length_append] at hlength
  refine ⟨?_, ?_⟩
  · rw [take, if_pos (by omega), Array.toList_extract, List.extract_eq_take_drop, h,
      Nat.add_sub_cancel_left, List.take_left]
  · rw [← List.drop_drop, h, List.drop_left]

instance : LawfulSource Region where
  Holds r position bytes := r.offset = position ∧ r.bytes.toList.drop r.offset = bytes
  take_append := by
    rintro r _ bytes rest ⟨rfl, h⟩
    obtain ⟨htake, hrest⟩ := take_append h
    exact ⟨{ r with offset := r.offset + bytes.length }, htake, rfl, hrest⟩
  takeRecords_append := by
    rintro r _ alignment bytes rest ⟨rfl, h⟩ hdvd
    obtain ⟨htake, hrest⟩ := take_append h
    refine ⟨{ r with offset := r.offset + bytes.length }, ?_, rfl, hrest⟩
    have haligned : ¬(0 < bytes.length ∧ r.offset % alignment ≠ 0) :=
      fun h => h.2 (Nat.mod_eq_zero_of_dvd hdvd)
    show r.takeRecords alignment bytes.length = _
    rw [takeRecords, htake]
    exact if_neg haligned

end Region

/-! ## Readers -/

namespace Wire

variable {σ α β : Type} [ByteSource σ] [LawfulSource σ]

/-- A reader that finds the given bytes at a position takes them and gives the value, whatever comes
after them. -/
def ReadsAt (position : Nat) (reader : Reader σ α) (bytes : List UInt8) (value : α) : Prop :=
  ∀ (source : σ) (rest : List UInt8), LawfulSource.Holds source position (bytes ++ rest) →
    ∃ source', reader.run source = .ok (value, source')
      ∧ LawfulSource.Holds source' (position + bytes.length) rest

namespace ReadsAt

variable {position : Nat} {reader : Reader σ α} {next : α → Reader σ β} {bytes more : List UInt8}
  {value : α} {result : β}

theorem pure (value : α) : ReadsAt position (Pure.pure value : Reader σ α) [] value := by
  intro source rest h
  exact ⟨source, rfl, h⟩

theorem bind (h : ReadsAt position reader bytes value)
    (hnext : ReadsAt (position + bytes.length) (next value) more result) :
    ReadsAt position (reader >>= next) (bytes ++ more) result := by
  intro source rest hholds
  rw [List.append_assoc] at hholds
  obtain ⟨source', hrun, hholds'⟩ := h _ _ hholds
  obtain ⟨source'', hrun', hholds''⟩ := hnext _ _ hholds'
  refine ⟨source'', ?_, ?_⟩
  · rw [StateT.run_bind, hrun]
    exact hrun'
  · rwa [List.length_append, ← Nat.add_assoc]

/-- A check that is passed takes nothing. -/
theorem require {condition : Prop} [Decidable condition] {reason : Malformed} (h : condition)
    {next : Unit → Reader σ β} (hnext : ReadsAt position (next ()) more result) :
    ReadsAt position (Wire.require condition reason >>= next) more result := by
  rw [Wire.require, if_pos h]
  exact hnext

theorem map (f : α → β) (h : ReadsAt position reader bytes value) :
    ReadsAt position (f <$> reader) bytes (f value) := by
  intro source rest hholds
  obtain ⟨source', hrun, hholds'⟩ := h _ _ hholds
  refine ⟨source', ?_, hholds'⟩
  rw [StateT.run_map, hrun]
  rfl

/-- What is last in a row of actions takes nothing. -/
theorem bind_pure (h : ReadsAt position reader bytes value) (f : α → β) :
    ReadsAt position (reader >>= fun x => Pure.pure (f x)) bytes (f value) := by
  have hbind : ReadsAt position (reader >>= fun x => Pure.pure (f x)) (bytes ++ []) (f value) :=
    h.bind (pure (f value))
  rwa [List.append_nil] at hbind

theorem take (position : Nat) (bytes : List UInt8) :
    ReadsAt position (ByteSource.take bytes.length : Reader σ (List UInt8)) bytes bytes :=
  fun _ _ h => LawfulSource.take_append h

theorem takeRecords {alignment : Nat} (bytes : List UInt8) (h : alignment ∣ position) :
    ReadsAt position (ByteSource.takeRecords alignment bytes.length : Reader σ (List UInt8)) bytes
      bytes :=
  fun _ _ hholds => LawfulSource.takeRecords_append hholds h

end ReadsAt

end Wire

/-! ## Numbers -/

@[simp] theorem length_littleEndian : ∀ (count n : Nat), (littleEndian count n).length = count
  | 0, _ => rfl
  | count + 1, n => congrArg (· + 1) (length_littleEndian count (n / 256))

theorem ofLittleEndian_littleEndian : ∀ {count n : Nat}, n < 256 ^ count →
    ofLittleEndian (littleEndian count n) = n
  | 0, n, h => by
      obtain rfl : n = 0 := by simpa using h
      rfl
  | count + 1, n, h => by
      have hquotient : n / 256 < 256 ^ count := by
        rw [Nat.div_lt_iff_lt_mul (by decide)]
        rwa [Nat.pow_succ] at h
      have hlow : (n % 256).toUInt8.toNat = n % 256 := by
        rw [Nat.toUInt8_eq, UInt8.toNat_ofNat', Nat.mod_mod]
      rw [littleEndian, ofLittleEndian, ofLittleEndian_littleEndian hquotient, hlow]
      exact Nat.mod_add_div n 256

/-- Records that are all of one size take so much each. -/
theorem length_flatMap_of_length {α : Type} {size : Nat} {f : α → List UInt8}
    (h : ∀ x, (f x).length = size) (items : List α) :
    (items.flatMap f).length = size * items.length := by
  induction items with
  | nil => rfl
  | cons x items ih =>
    rw [List.flatMap_cons, List.length_append, ih, h, List.length_cons, Nat.mul_succ, Nat.add_comm]

/-- Records that are all of one size are found again. -/
theorem byteGroups_flatMap {α : Type} {size : Nat} {f : α → List UInt8} :
    ∀ {items : List α}, (∀ x ∈ items, (f x).length = size) →
      byteGroups size items.length (items.flatMap f) = items.map f
  | [], _ => rfl
  | x :: items, h => by
      have hx := h x List.mem_cons_self
      have hrest := byteGroups_flatMap fun y hy => h y (List.mem_cons_of_mem x hy)
      rw [List.length_cons, List.flatMap_cons, byteGroups, List.take_left' hx, List.drop_left' hx,
        hrest, List.map_cons]

namespace Wire

variable {σ : Type} [ByteSource σ] [LawfulSource σ] {position : Nat}

theorem readsAt_number {count n : Nat} (h : n < 256 ^ count) :
    ReadsAt position (readNumber count : Reader σ Nat) (littleEndian count n) n := by
  have htake : ReadsAt position (ByteSource.take count : Reader σ (List UInt8))
      (littleEndian count n) (littleEndian count n) := by
    have htake := ReadsAt.take (σ := σ) position (littleEndian count n)
    rwa [length_littleEndian] at htake
  have hread := htake.bind_pure ofLittleEndian
  rwa [ofLittleEndian_littleEndian h] at hread

/-! ## Blobs -/

theorem length_blob (bytes : List UInt8) :
    (blobPieces bytes).flatten.length = blobSize bytes.length := by
  simp [blobPieces, blobSize, Nat.add_assoc]

/-- Blobs end where the next one may begin. -/
theorem dvd_blobSize (n : Nat) : 8 ∣ blobSize n := by
  unfold blobSize padding
  omega

theorem dvd_length_blob (bytes : List UInt8) : 8 ∣ (blobPieces bytes).flatten.length := by
  rw [length_blob]
  exact dvd_blobSize _

/-- The padding behind a blob is skipped. -/
theorem readsAt_padding (n : Nat) {α : Type} (value : α) :
    ReadsAt position (ByteSource.take (padding n) >>= fun _ => pure value : Reader σ α)
      (List.replicate (padding n) 0) value := by
  have htake := (ReadsAt.take (σ := σ) position (List.replicate (padding n) 0)).bind_pure
    fun _ => value
  rwa [List.length_replicate] at htake

/-- A blob that begins at a multiple of eight gives back its records. -/
theorem readsAt_blob {record alignment : Nat} {bytes : List UInt8} (hposition : 8 ∣ position)
    (halignment : alignment ∣ 8) (hlength : bytes.length < 2 ^ 64)
    (hrecord : record ∣ bytes.length) :
    ReadsAt position (readBlob record alignment : Reader σ (List (List UInt8)))
      (blobPieces bytes).flatten (byteGroups record (bytes.length / record) bytes) := by
  have hstart : alignment ∣ position + (littleEndian 8 bytes.length).length := by
    rw [length_littleEndian]
    exact Nat.dvd_trans halignment (Nat.dvd_add hposition (Nat.dvd_refl 8))
  have hpieces : (blobPieces bytes).flatten
      = littleEndian 8 bytes.length ++ (bytes ++ List.replicate (padding bytes.length) 0) := by
    simp [blobPieces]
  rw [hpieces]
  refine (readsAt_number hlength).bind ?_
  refine ReadsAt.require (Nat.mod_eq_zero_of_dvd hrecord) ?_
  exact (ReadsAt.takeRecords bytes hstart).bind (readsAt_padding bytes.length _)

/-- A blob of bytes needs no alignment. -/
theorem readsAt_bytes {bytes : Array UInt8} (hlength : bytes.size < 2 ^ 64) :
    ReadsAt position (readBytes : Reader σ (Array UInt8)) (blobPieces bytes.toList).flatten
      bytes := by
  have hpieces : (blobPieces bytes.toList).flatten = littleEndian 8 bytes.toList.length
      ++ (bytes.toList ++ List.replicate (padding bytes.toList.length) 0) := by
    simp [blobPieces]
  rw [hpieces]
  refine (readsAt_number (by simpa using hlength)).bind ?_
  exact (ReadsAt.takeRecords bytes.toList (Nat.one_dvd _)).bind (readsAt_padding _ _)

/-- A blob of records of one size, each of which is read back from its bytes, gives back all of
them. -/
theorem readsAt_records {α : Type} {record alignment : Nat} {write : α → List UInt8}
    {read : List UInt8 → α} (items : List α) (hposition : 8 ∣ position) (halignment : alignment ∣ 8)
    (hrecord : 0 < record) (hlength : record * items.length < 2 ^ 64)
    (hwrite : ∀ x, (write x).length = record) (hread : ∀ x, read (write x) = x) :
    ReadsAt position
      (readBlob record alignment >>= fun groups => pure (groups.map read).toArray :
        Reader σ (Array α))
      (blobPieces (items.flatMap write)).flatten items.toArray := by
  have hsize := length_flatMap_of_length hwrite items
  have hdvd : record ∣ (items.flatMap write).length :=
    hsize ▸ Nat.dvd_mul_right record items.length
  have hblob := readsAt_blob (σ := σ) hposition halignment (hsize ▸ hlength) hdvd
  rw [hsize, Nat.mul_div_cancel_left _ hrecord, byteGroups_flatMap fun x _ => hwrite x] at hblob
  have hitems := hblob.bind_pure fun groups => (groups.map read).toArray
  have hmap : (items.map write).map read = items := by
    rw [List.map_map]
    exact (List.map_congr_left fun x _ => hread x).trans (List.map_id items)
  rwa [hmap] at hitems

end Wire

end Lexicon
