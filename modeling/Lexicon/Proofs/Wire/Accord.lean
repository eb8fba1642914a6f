/-
Lexicon.Proofs.Wire.Accord — what a reader makes of any bytes, wherever they come from.

`ReadsAt` speaks of the bytes that a reader accepts. `AgreesAt` speaks of all bytes: a
reader is given some bytes by one source, and by another source the same bytes with more
behind them. Either both runs find the same value in the same bytes, and what is known of
these is said by a postcondition; or both refuse the bytes with the same complaint about
their contents; or the first source ends, and then so does the second one if nothing more
was behind. This is proved of a reader from its parts (`AgreesAt.bind`), once for everything
that there is to say about it: with a stream and a region over the same bytes it says
that they are read alike, with more bytes behind it says that a stored form that was cut
off is never taken for another one, and its postcondition says what was accepted. This
module ends with blobs, of which all fields are made.
-/
import Lexicon.Proofs.Wire.Leeway

namespace Lexicon

/-! ## Complaints -/

/-- The complaint is about what the bytes say, not about how many they are or where they stand. -/
def Malformed.IsOfContents : Malformed → Prop
  | regionEnd .. => False
  | misalignedBlob .. => False
  | _ => True

/-- The complaint is about what some stored bytes say. -/
def Fault.IsOfContents : Fault → Prop
  | malformed reason => reason.IsOfContents
  | undefinedCode _ => True
  | lengthLimit => True
  | _ => False

/-! ## Sources that end -/

/-- A lawful source that says in its own way that too few bytes are left. -/
class FiniteSource (σ : Type) [ByteSource σ] extends LawfulSource σ where
  /-- The complaint that too few bytes are left. -/
  Ends : Fault → Prop
  take_ends : ∀ {source : σ} {position count : Nat} {bytes : List UInt8},
    Holds source position bytes → bytes.length < count →
    ∃ fault, ByteSource.take count source = .error fault ∧ Ends fault
  takeRecords_ends : ∀ {source : σ} {position alignment count : Nat} {bytes : List UInt8},
    Holds source position bytes → bytes.length < count →
    ∃ fault, ByteSource.takeRecords alignment count source = .error fault ∧ Ends fault

namespace Stream

/-- The chunks are too few bytes together. -/
theorem takeChunks_eq_none : ∀ {count : Nat} {chunks : List (List UInt8)}
    (taken : List (List UInt8)), chunks.flatten.length < count →
    takeChunks count chunks taken = none
  | 0, _, _, h => absurd h (Nat.not_lt_zero _)
  | _ + 1, [], _, _ => rfl
  | count + 1, chunk :: chunks, taken, h => by
      rw [List.flatten_cons, List.length_append] at h
      have hhead : chunk.take (count + 1) = chunk := List.take_of_length_le (by omega)
      have hmissing : count + 1 - chunk.length ≠ 0 := by omega
      have hfew : chunks.flatten.length < count + 1 - chunk.length := by omega
      rw [takeChunks]
      simp only [hhead, if_neg hmissing, takeChunks_eq_none (chunk :: taken) hfew]

theorem take_eq_streamEnd {count : Nat} {s : Stream} (h : s.chunks.flatten.length < count) :
    s.take count = .error .streamEnd := by
  rw [take, takeChunks_eq_none [] h]

instance : FiniteSource Stream where
  Ends fault := fault = .streamEnd
  take_ends := by
    rintro source position count _ rfl h
    exact ⟨.streamEnd, take_eq_streamEnd h, rfl⟩
  takeRecords_ends := by
    rintro source position alignment count _ rfl h
    exact ⟨.streamEnd, take_eq_streamEnd h, rfl⟩

end Stream

namespace Region

/-- The complaint that a field reaches past the end of the region. -/
def IsEnd (fault : Fault) : Prop :=
  ∃ need offset available, available < need
    ∧ fault = .malformed (.regionEnd need offset available)

theorem take_isEnd {count : Nat} {r : Region} (h : r.bytes.size - r.offset < count) :
    ∃ fault, r.take count = .error fault ∧ IsEnd fault := by
  rw [take, if_neg (Nat.not_le_of_lt h)]
  exact ⟨_, rfl, _, _, _, h, rfl⟩

instance : FiniteSource Region where
  Ends := IsEnd
  take_ends := by
    rintro r _ count _ ⟨rfl, rfl⟩ h
    rw [List.length_drop, Array.length_toList] at h
    exact take_isEnd h
  takeRecords_ends := by
    rintro r _ alignment count _ ⟨rfl, rfl⟩ h
    rw [List.length_drop, Array.length_toList] at h
    obtain ⟨fault, htake, hend⟩ := take_isEnd h
    refine ⟨fault, ?_, hend⟩
    show r.takeRecords alignment count = _
    rw [takeRecords, htake]
    rfl

end Region

namespace Wire

variable {σ τ α β : Type} [ByteSource σ] [FiniteSource σ] [ByteSource τ] [FiniteSource τ]

/-! ## Runs in accord -/

/-- What two runs come to that start at one position, the first with `front` to come and the second
with `rest` behind it: the same value in the same bytes, of which the postcondition holds, or the
same complaint about their contents, or the end of the first source, which without a rest is also
that of the second. -/
inductive Accord (position : Nat) (front rest : List UInt8) (post : α → List UInt8 → Prop) :
    Except Fault (α × σ) → Except Fault (α × τ) → Prop
  | found {value : α} {stored left : List UInt8} {source : σ} {other : τ} :
    front = stored ++ left → post value stored →
    LawfulSource.Holds source (position + stored.length) left →
    LawfulSource.Holds other (position + stored.length) (left ++ rest) →
    Accord position front rest post (.ok (value, source)) (.ok (value, other))
  | refused {fault : Fault} : fault.IsOfContents →
    Accord position front rest post (.error fault) (.error fault)
  | ended {fault : Fault} {result : Except Fault (α × τ)} : FiniteSource.Ends σ fault →
    (rest = [] → ∃ fault', result = .error fault' ∧ FiniteSource.Ends τ fault') →
    Accord position front rest post (.error fault) result

/-- Two readers at one position come to the same, the first on some bytes and the second on these
with a rest behind them. -/
def AgreesAt (position : Nat) (front rest : List UInt8) (reader : Reader σ α) (other : Reader τ α)
    (post : α → List UInt8 → Prop) : Prop :=
  ∀ (source : σ) (source' : τ), LawfulSource.Holds source position front →
    LawfulSource.Holds source' position (front ++ rest) →
    Accord position front rest post (reader.run source) (other.run source')

namespace AgreesAt

variable {position : Nat} {front rest : List UInt8} {post : α → List UInt8 → Prop}
  {after : β → List UInt8 → Prop}

theorem pure {value : α} (h : post value []) :
    AgreesAt position front rest (Pure.pure value : Reader σ α) (Pure.pure value : Reader τ α)
      post :=
  fun _ _ hsource hsource' => .found rfl h hsource hsource'

/-- What follows a reader starts behind the bytes that it found. -/
theorem bind {reader : Reader σ α} {other : Reader τ α} {next : α → Reader σ β}
    {next' : α → Reader τ β} (h : AgreesAt position front rest reader other post)
    (hnext : ∀ value stored left, front = stored ++ left → post value stored →
      AgreesAt (position + stored.length) left rest (next value) (next' value)
        fun result more => after result (stored ++ more)) :
    AgreesAt position front rest (reader >>= next) (other >>= next') after := by
  intro source source' hsource hsource'
  have hrun := h source source' hsource hsource'
  rw [StateT.run_bind, StateT.run_bind]
  generalize reader.run source = result at hrun
  generalize other.run source' = result' at hrun
  cases hrun with
  | @found value stored left source source' hfront hpost hsource hsource' =>
    have hrun := hnext value stored left hfront hpost source source' hsource hsource'
    show Accord position front rest after ((next value).run source) ((next' value).run source')
    generalize (next value).run source = result at hrun
    generalize (next' value).run source' = result' at hrun
    cases hrun with
    | @found _ more _ _ _ hleft hafter hsource hsource' =>
      rw [Nat.add_assoc, ← List.length_append] at hsource hsource'
      exact .found (by rw [hfront, hleft, List.append_assoc]) hafter hsource hsource'
    | refused hfault => exact .refused hfault
    | ended hfault hends => exact .ended hfault hends
  | refused hfault => exact .refused hfault
  | ended hfault hends =>
    -- Only without a rest does the second run have to end before what follows.
    refine .ended hfault ?_
    intro hrest
    obtain ⟨fault', rfl, hfault'⟩ := hends hrest
    exact ⟨fault', rfl, hfault'⟩

/-- A check that is not passed is a complaint about the contents. -/
theorem require {condition : Prop} [Decidable condition] {reason : Malformed}
    {next : Unit → Reader σ β} {next' : Unit → Reader τ β} (hreason : reason.IsOfContents)
    (h : condition → AgreesAt position front rest (next ()) (next' ()) after) :
    AgreesAt position front rest (Wire.require condition reason >>= next)
      (Wire.require condition reason >>= next') after := by
  by_cases hcondition : condition
  · rw [Wire.require, Wire.require, if_pos hcondition, if_pos hcondition]
    exact h hcondition
  · rw [Wire.require, Wire.require, if_neg hcondition, if_neg hcondition]
    exact fun _ _ _ _ => .refused hreason

/-- What does not read fails with a complaint about the contents, if it fails. -/
theorem lift {x : Except Fault α} {next : α → Reader σ β} {next' : α → Reader τ β}
    (hfault : ∀ fault, x = .error fault → fault.IsOfContents)
    (h : ∀ value, x = .ok value → AgreesAt position front rest (next value) (next' value) after) :
    AgreesAt position front rest ((liftM x : Reader σ α) >>= next)
      ((liftM x : Reader τ α) >>= next') after := by
  cases x with
  | error fault => exact fun _ _ _ _ => .refused (hfault fault rfl)
  | ok value => exact h value rfl

/-- The last in a row of actions only makes a value. -/
theorem bind_pure {reader : Reader σ α} {other : Reader τ α} (f : α → β)
    (h : AgreesAt position front rest reader other post)
    (hpost : ∀ value stored, post value stored → after (f value) stored) :
    AgreesAt position front rest (reader >>= fun x => Pure.pure (f x))
      (other >>= fun x => Pure.pure (f x)) after := by
  refine h.bind fun value stored left _ hvalue => ?_
  refine AgreesAt.pure ?_
  rw [List.append_nil]
  exact hpost value stored hvalue

end AgreesAt

/-- The reader takes just so many bytes, or complains that they are too few. -/
structure Takes (position count : Nat) (reader : Reader σ (List UInt8)) : Prop where
  enough : ∀ bytes, bytes.length = count → ReadsAt position reader bytes bytes
  few : ∀ {source : σ} {bytes : List UInt8}, LawfulSource.Holds source position bytes →
    bytes.length < count → ∃ fault, reader.run source = .error fault ∧ FiniteSource.Ends σ fault

theorem takes_take (position count : Nat) :
    Takes position count (ByteSource.take count : Reader σ (List UInt8)) where
  enough := by
    rintro bytes rfl
    exact ReadsAt.take position bytes
  few := FiniteSource.take_ends

theorem takes_takeRecords {position alignment : Nat} (count : Nat) (h : alignment ∣ position) :
    Takes position count (ByteSource.takeRecords alignment count : Reader σ (List UInt8)) where
  enough := by
    rintro bytes rfl
    exact ReadsAt.takeRecords bytes h
  few := FiniteSource.takeRecords_ends

variable {position : Nat} {front rest : List UInt8}

/-- Taking some bytes finds them, or there are too few. -/
theorem Takes.agreesAt {count : Nat} {reader : Reader σ (List UInt8)}
    {other : Reader τ (List UInt8)} (h : Takes position count reader)
    (h' : Takes position count other) :
    AgreesAt position front rest reader other
      fun bytes stored => bytes = stored ∧ bytes.length = count := by
  intro source source' hsource hsource'
  rcases Nat.lt_or_ge front.length count with hlt | hle
  · obtain ⟨fault, hrun, hends⟩ := h.few hsource hlt
    rw [hrun]
    refine .ended hends ?_
    rintro rfl
    rw [List.append_nil] at hsource'
    exact h'.few hsource' hlt
  · have hfront : front = front.take count ++ front.drop count := (List.take_append_drop _ _).symm
    have hcount : (front.take count).length = count := List.length_take_of_le hle
    rw [hfront] at hsource hsource'
    rw [List.append_assoc] at hsource'
    obtain ⟨left, hrun, hleft⟩ := h.enough _ hcount source _ hsource
    obtain ⟨left', hrun', hleft'⟩ := h'.enough _ hcount source' _ hsource'
    rw [hrun, hrun']
    exact .found hfront ⟨rfl, hcount⟩ hleft hleft'

end Wire

/-! ## Numbers -/

theorem ofLittleEndian_lt : ∀ bytes : List UInt8, ofLittleEndian bytes < 256 ^ bytes.length
  | [] => Nat.one_pos
  | b :: bytes => by
      have ih := ofLittleEndian_lt bytes
      have hb := b.toNat_lt
      rw [ofLittleEndian, List.length_cons, Nat.pow_succ]
      omega

/-- A number is written with the bytes that it was read from. -/
theorem littleEndian_ofLittleEndian : ∀ bytes : List UInt8,
    littleEndian bytes.length (ofLittleEndian bytes) = bytes
  | [] => rfl
  | b :: bytes => by
      have hb := b.toNat_lt
      have hlow : (b.toNat + 256 * ofLittleEndian bytes) % 256 = b.toNat := by omega
      have hhigh : (b.toNat + 256 * ofLittleEndian bytes) / 256 = ofLittleEndian bytes := by omega
      rw [ofLittleEndian, List.length_cons, littleEndian, hlow, hhigh,
        littleEndian_ofLittleEndian bytes, Nat.toUInt8_eq, UInt8.ofNat_toNat]

@[simp] theorem length_byteGroups (size : Nat) : ∀ (count : Nat) (bytes : List UInt8),
    (byteGroups size count bytes).length = count
  | 0, _ => rfl
  | count + 1, bytes => congrArg (· + 1) (length_byteGroups size count (bytes.drop size))

/-- Groups that the bytes are enough for make up the bytes, and all are of one size. -/
theorem byteGroups_spec {size : Nat} : ∀ {count : Nat} {bytes : List UInt8},
    bytes.length = size * count →
    (byteGroups size count bytes).flatten = bytes
      ∧ ∀ group ∈ byteGroups size count bytes, group.length = size
  | 0, bytes, h => by
      rw [Nat.mul_zero, List.length_eq_zero_iff] at h
      subst h
      exact ⟨rfl, fun _ hgroup => nomatch hgroup⟩
  | count + 1, bytes, h => by
      rw [Nat.mul_succ] at h
      have hdrop : (bytes.drop size).length = size * count := by
        rw [List.length_drop]
        omega
      obtain ⟨hflatten, hgroups⟩ := byteGroups_spec hdrop
      rw [byteGroups, List.flatten_cons, hflatten, List.take_append_drop]
      refine ⟨rfl, ?_⟩
      intro group hgroup
      rcases List.mem_cons.mp hgroup with rfl | hgroup
      · exact List.length_take_of_le (by omega)
      · exact hgroups group hgroup

namespace Wire

variable {σ τ : Type} [ByteSource σ] [FiniteSource σ] [ByteSource τ] [FiniteSource τ]
  {position : Nat} {front rest : List UInt8}

theorem agreesAt_take (count : Nat) :
    AgreesAt position front rest (ByteSource.take count : Reader σ (List UInt8))
      (ByteSource.take count : Reader τ (List UInt8))
      fun bytes stored => bytes = stored ∧ bytes.length = count :=
  (takes_take position count).agreesAt (takes_take position count)

theorem agreesAt_takeRecords {alignment : Nat} (count : Nat) (h : alignment ∣ position) :
    AgreesAt position front rest (ByteSource.takeRecords alignment count : Reader σ (List UInt8))
      (ByteSource.takeRecords alignment count : Reader τ (List UInt8))
      fun bytes stored => bytes = stored ∧ bytes.length = count :=
  (takes_takeRecords count h).agreesAt (takes_takeRecords count h)

theorem agreesAt_number (count : Nat) :
    AgreesAt position front rest (readNumber count : Reader σ Nat) (readNumber count : Reader τ Nat)
      fun n stored => n < 256 ^ count ∧ Stored (numberStretch count n) stored := by
  refine (agreesAt_take count).bind_pure ofLittleEndian ?_
  rintro bytes _ ⟨rfl, rfl⟩
  refine ⟨ofLittleEndian_lt bytes, ?_⟩
  rw [numberStretch, littleEndian_ofLittleEndian]
  exact Stored.single (.fixed bytes)

/-- A number has no leeway. -/
theorem stored_number {count n : Nat} {stored : List UInt8}
    (h : Stored (numberStretch count n) stored) : stored = littleEndian count n := by
  cases h with
  | cons hfirst hnil =>
    cases hfirst
    cases hnil
    exact List.append_nil _

theorem length_stored_number {count n : Nat} {stored : List UInt8}
    (h : Stored (numberStretch count n) stored) : stored.length = count := by
  rw [stored_number h, length_littleEndian]

/-! ## Blobs -/

/-- A length, so many bytes and their padding are a blob, whatever the padding is. -/
theorem stored_blob {bytes padded stored : List UInt8}
    (hlength : Stored (numberStretch 8 bytes.length) stored)
    (hpadded : padded.length = padding bytes.length) :
    Stored (blobStretches bytes) (stored ++ (bytes ++ padded)) := by
  refine hlength.append (.cons (.fixed bytes) ?_)
  rw [← hpadded]
  exact Stored.single (.padding padded)

/-- A blob that begins at a multiple of eight is found record by record. -/
theorem agreesAt_blob {record alignment : Nat} (hposition : 8 ∣ position)
    (halignment : alignment ∣ 8) :
    AgreesAt position front rest (readBlob record alignment : Reader σ (List (List UInt8)))
      (readBlob record alignment : Reader τ (List (List UInt8)))
      fun groups stored => record * groups.length < 2 ^ 64
        ∧ (∀ group ∈ groups, group.length = record)
        ∧ Stored (blobStretches groups.flatten) stored := by
  refine (agreesAt_number 8).bind ?_
  rintro length stored _ _ ⟨hlength, hstored⟩
  refine AgreesAt.require trivial fun hrecord => ?_
  have hstart : alignment ∣ position + stored.length := by
    rw [length_stored_number hstored]
    exact Nat.dvd_trans halignment (Nat.dvd_add hposition (Nat.dvd_refl 8))
  refine (agreesAt_takeRecords length hstart).bind ?_
  rintro bytes _ _ _ ⟨hbytes, hcount⟩
  subst hbytes hcount
  refine (agreesAt_take _).bind_pure (fun _ => byteGroups record (bytes.length / record) bytes) ?_
  rintro padded _ ⟨rfl, hpadded⟩
  have hgroups : bytes.length = record * (bytes.length / record) :=
    (Nat.mul_div_cancel' (Nat.dvd_of_mod_eq_zero hrecord)).symm
  obtain ⟨hflatten, hsizes⟩ := byteGroups_spec hgroups
  rw [length_byteGroups, ← hgroups, hflatten]
  exact ⟨hlength, hsizes, stored_blob hstored hpadded⟩

/-- A blob of bytes may begin anywhere. -/
theorem agreesAt_bytes :
    AgreesAt position front rest (readBytes : Reader σ (Array UInt8))
      (readBytes : Reader τ (Array UInt8))
      fun bytes stored => bytes.size < 2 ^ 64 ∧ Stored (blobStretches bytes.toList) stored := by
  refine (agreesAt_number 8).bind ?_
  rintro length stored _ _ ⟨hlength, hstored⟩
  refine (agreesAt_takeRecords length (Nat.one_dvd _)).bind ?_
  rintro bytes _ _ _ ⟨hbytes, hcount⟩
  subst hbytes hcount
  refine (agreesAt_take _).bind_pure (fun _ => bytes.toArray) ?_
  rintro padded _ ⟨rfl, hpadded⟩
  exact ⟨hlength, stored_blob hstored hpadded⟩

/-- A blob of records of one size is found as records that are written with the same bytes. -/
theorem agreesAt_records {α : Type} {record alignment : Nat} {write : α → List UInt8}
    {read : List UInt8 → α} (hposition : 8 ∣ position) (halignment : alignment ∣ 8)
    (hwrite : ∀ group : List UInt8, group.length = record → write (read group) = group) :
    AgreesAt position front rest
      (readBlob record alignment >>= fun groups => pure (groups.map read).toArray :
        Reader σ (Array α))
      (readBlob record alignment >>= fun groups => pure (groups.map read).toArray :
        Reader τ (Array α))
      fun items stored => record * items.size < 2 ^ 64
        ∧ Stored (blobStretches (items.toList.flatMap write)) stored := by
  have hblob : AgreesAt position front rest (readBlob record alignment : Reader σ _)
      (readBlob record alignment : Reader τ _) _ := agreesAt_blob hposition halignment
  refine hblob.bind_pure (fun groups => (groups.map read).toArray) ?_
  rintro groups stored ⟨hsize, hgroups, hstored⟩
  have hsame : (groups.map read).flatMap write = groups.flatten := by
    rw [List.flatMap_map, List.flatMap_def, List.map_congr_left fun g hg => hwrite g (hgroups g hg),
      List.map_id']
  rw [List.size_toArray, List.length_map, hsame]
  exact ⟨hsize, hstored⟩

end Wire

end Lexicon
