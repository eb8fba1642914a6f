/-
Lexicon.Proofs.Wire.Restoring — which bytes restore a dictionary, and which dictionary.

A stream and a region run one reader, and `Wire.agreesAt_cascade` compares its two runs on
bytes of which the region may hold more. `Dictionary.read_cases` says this of dictionaries,
and everything here follows from it. Without more bytes, a stream and a region read alike:
the same dictionary, the same complaint, or each that it was too short
(`read_agrees_ofBytes`). Whatever bytes are accepted, what they were read as can be stored
in as many bytes, which are the accepted ones up to their leeway (`encode_of_ofBytes`). With
the rest of a stored form behind them, the bytes of a stored form that was cut off cannot
be refused and cannot be a shorter one, so they are too few (`encode_self_delimiting`).
-/
import Lexicon.Proofs.Wire.Accepting
import Lexicon.Proofs.Wire.Storing

namespace Lexicon

namespace Dictionary

/-! ## Two runs -/

/-- What a stream comes to, and a region in which the same bytes stand with a rest behind them. -/
theorem read_cases (chunks : List (List UInt8)) (rest : List UInt8) :
    (∃ c stored left, chunks.flatten = stored ++ left ∧ Wire.CascadeFound c stored
        ∧ read ⟨chunks⟩ = .ok ⟨some c⟩ ∧ ofBytes (chunks.flatten ++ rest) = .ok ⟨some c⟩)
      ∨ (∃ fault : Fault, fault.IsOfContents ∧ read ⟨chunks⟩ = .error fault
        ∧ ofBytes (chunks.flatten ++ rest) = .error fault)
      ∨ (read ⟨chunks⟩ = .error .streamEnd ∧ (rest = [] →
        ∃ fault, ofBytes (chunks.flatten ++ rest) = .error fault ∧ Region.IsEnd fault)) := by
  have hlength : sumOf (chunks.map (·.length)) = chunks.flatten.length := by
    rw [List.length_flatten]
    rfl
  have hruns := Wire.agreesAt_cascade (Nat.lt_succ_self chunks.flatten.length)
    (Nat.lt_succ_self (chunks.flatten ++ rest).length) (⟨chunks⟩ : Stream)
    (Region.ofBytes (chunks.flatten ++ rest)) rfl ⟨rfl, List.drop_zero⟩
  unfold read ofBytes
  rw [hlength]
  generalize StateT.run _ (⟨chunks⟩ : Stream) = result at hruns ⊢
  generalize StateT.run _ (Region.ofBytes (chunks.flatten ++ rest)) = result' at hruns ⊢
  cases hruns with
  | found hfront hfound _ _ => exact Or.inl ⟨_, _, _, hfront, hfound, rfl, rfl⟩
  | refused hfault => exact Or.inr (Or.inl ⟨_, hfault, rfl, rfl⟩)
  | ended hends hends' =>
    refine Or.inr (Or.inr ⟨congrArg Except.error hends, ?_⟩)
    intro hrest
    obtain ⟨fault, rfl, hfault⟩ := hends' hrest
    exact ⟨fault, rfl, hfault⟩

/-! ## Streams and regions -/

/-- Reading failed because a stream ended, and that is what it says. -/
def StreamEnded (result : Except Fault Dictionary) : Prop :=
  result = .error .streamEnd
    ∧ Fault.streamEnd.message = "I/O error: failed to fill whole buffer"

/-- Reading failed because a region ended, and that is what it says. -/
def RegionEnded (result : Except Fault Dictionary) : Prop :=
  ∃ need offset available, available < need
    ∧ result = .error (.malformed (.regionEnd need offset available))
    ∧ (Fault.malformed (.regionEnd need offset available)).message = "invalid format: " ++
    s!"unexpected end of mapped region: need {need} bytes at offset {offset}, {available} available"

theorem streamEnded_iff {result : Except Fault Dictionary} :
    StreamEnded result ↔ result = .error .streamEnd :=
  and_iff_left rfl

theorem regionEnded_iff {result : Except Fault Dictionary} :
    RegionEnded result ↔ ∃ fault, result = .error fault ∧ Region.IsEnd fault := by
  constructor
  · rintro ⟨need, offset, available, hlt, h, _⟩
    exact ⟨_, h, need, offset, available, hlt, rfl⟩
  · rintro ⟨_, h, need, offset, available, hlt, rfl⟩
    exact ⟨need, offset, available, hlt, h, rfl⟩

/-- A stream and a region come to the same: the same dictionary, or the same complaint about the
contents, or each of them ended. -/
inductive Alike : Except Fault Dictionary → Except Fault Dictionary → Prop
  | found (d : Dictionary) : Alike (.ok d) (.ok d)
  | refused {fault : Fault} : fault.IsOfContents → Alike (.error fault) (.error fault)
  | ended {streamed mapped : Except Fault Dictionary} : StreamEnded streamed →
    RegionEnded mapped → Alike streamed mapped

namespace Alike

variable {streamed mapped : Except Fault Dictionary}

/-- Neither of them ends alone. -/
theorem ended_iff (h : Alike streamed mapped) : StreamEnded streamed ↔ RegionEnded mapped := by
  cases h with
  | found d =>
    refine iff_of_false ?_ ?_
    · rintro ⟨h, _⟩
      cases h
    · rintro ⟨_, _, _, _, h, _⟩
      cases h
  | refused hfault =>
    refine iff_of_false ?_ ?_
    · rintro ⟨h, _⟩
      cases h
      exact hfault
    · rintro ⟨_, _, _, _, h, _⟩
      cases h
      exact hfault
  | ended hstreamed hmapped => exact iff_of_true hstreamed hmapped

/-- The records of a region are never misaligned. -/
theorem ne_misaligned (h : Alike streamed mapped) (offset : Nat) :
    mapped ≠ .error (.malformed (.misalignedBlob offset)) := by
  rintro rfl
  cases h with
  | refused hfault => exact hfault
  | ended _ hmapped =>
    obtain ⟨_, _, _, _, h, _⟩ := hmapped
    cases h

theorem eq_ok {d : Dictionary} (h : Alike (.ok d) mapped) : mapped = .ok d := by
  cases h with
  | found => rfl
  | ended hstreamed _ => cases hstreamed.1

end Alike

/-- The two runs without a rest. -/
theorem read_alike (chunks : List (List UInt8)) :
    Alike (read ⟨chunks⟩) (ofBytes chunks.flatten) := by
  have hcases := read_cases chunks []
  rw [List.append_nil] at hcases
  rcases hcases with ⟨c, _, _, _, _, hread, hregion⟩ | ⟨fault, hfault, hread, hregion⟩
    | ⟨hread, hregion⟩
  · rw [hread, hregion]
    exact .found ⟨some c⟩
  · rw [hread, hregion]
    exact .refused hfault
  · exact .ended (streamEnded_iff.mpr hread) (regionEnded_iff.mpr (hregion rfl))

/-- A stream and a region with the same bytes are read alike, whatever the bytes are and however
the chunks of the stream are cut. One of them ends just when the other one does, and no record of
the region is ever misaligned. -/
theorem read_agrees_ofBytes (chunks : List (List UInt8)) :
    Alike (read ⟨chunks⟩) (ofBytes chunks.flatten)
      ∧ (StreamEnded (read ⟨chunks⟩) ↔ RegionEnded (ofBytes chunks.flatten))
      ∧ ∀ offset, ofBytes chunks.flatten ≠ .error (.malformed (.misalignedBlob offset)) :=
  have halike := read_alike chunks
  ⟨halike, halike.ended_iff, halike.ne_misaligned⟩

/-! ## What is accepted -/

/-- Bytes that are accepted begin with those of a cascade. -/
theorem found_of_ofBytes {bytes : List UInt8} {d : Dictionary} (h : ofBytes bytes = .ok d) :
    ∃ c stored left, bytes = stored ++ left ∧ Wire.CascadeFound c stored ∧ d = ⟨some c⟩ := by
  have hcases := read_cases [bytes] []
  rw [List.flatten_singleton, List.append_nil, h] at hcases
  rcases hcases with ⟨c, stored, left, hbytes, hfound, _, hregion⟩ | ⟨_, _, _, hregion⟩
    | ⟨_, hregion⟩
  · cases hregion
    exact ⟨c, stored, left, hbytes, hfound, rfl⟩
  · cases hregion
  · obtain ⟨_, hregion, _⟩ := hregion rfl
    cases hregion

/-- Whatever bytes are accepted, what they are read as is stored in as many bytes as it tells, and
these stand at the beginning of the accepted ones up to their leeway: the bytes behind a blob,
which are written as zero, and the fields of a configuration word that are zero for the default,
which are written as the default. The same dictionary is restored from what is written. It has as
many levels as it tells, between one and 127. -/
theorem encode_of_ofBytes {bytes : List UInt8} {d : Dictionary} (h : ofBytes bytes = .ok d) :
    ∃ c written, d.cascade = some c ∧ d.encode = .ok written
      ∧ written.length = d.wireSize ∧ d.wireSize ≤ bytes.length
      ∧ c.stretches.flatMap Stretch.written = written
      ∧ Stored c.stretches (bytes.take d.wireSize)
      ∧ ofBytes written = .ok d
      ∧ c.levels.length = d.numLevels
      ∧ Config.minLevels ≤ d.numLevels ∧ d.numLevels ≤ Config.maxLevels := by
  obtain ⟨c, stored, left, rfl, ⟨hstorable, hstored⟩, rfl⟩ := found_of_ofBytes h
  have hsize : stored.length = c.wireSize := by
    rw [hstored.length_eq, c.flatMap_written, c.length_encode]
  have htake : (stored ++ left).take c.wireSize = stored := List.take_left' hsize
  refine ⟨c, c.encode, rfl, rfl, c.length_encode, ?_, c.flatMap_written, ?_,
    ofBytes_encode hstorable, hstorable.levels_eq.symm, hstorable.valid⟩
  · show c.wireSize ≤ _
    rw [List.length_append]
    omega
  · show Stored c.stretches ((stored ++ left).take c.wireSize)
    rw [htake]
    exact hstored

end Dictionary

/-- No keys: a root without children, and a single slot. -/
def Cascade.keyless : Cascade where
  top :=
    { louds := .ofBits [true, false, false, false] true true
      terminals := .ofBits [false, false] false true
      links := .ofBits [false] false false
      bases := #[0]
      extras := .empty
      tail := .empty
      cache := #[.fresh]
      rootDegree := 0
      config := { levels := 1 } }
  deeper := []

/-- A stretch with all of its leeway used: ones behind a blob, and no field but the levels. -/
def Stretch.otherwise : Stretch → List UInt8
  | fixed bytes => bytes
  | padding count => List.replicate count 255
  | code config => littleEndian 4 config.levels

namespace Dictionary

/-- Written otherwise, the dictionary without keys is accepted, and written as usual again. -/
theorem encode_of_ofBytes_otherwise :
    ofBytes (Cascade.keyless.stretches.flatMap Stretch.otherwise) = .ok ⟨some .keyless⟩
      ∧ ∃ written, Dictionary.encode ⟨some .keyless⟩ = .ok written
        ∧ written ≠ Cascade.keyless.stretches.flatMap Stretch.otherwise
        ∧ written.length = Dictionary.wireSize ⟨some .keyless⟩
        ∧ ofBytes written = .ok ⟨some .keyless⟩ := by
  -- A stream is cheaper to run than a region, and they are read alike.
  have hread : read ⟨[Cascade.keyless.stretches.flatMap Stretch.otherwise]⟩
      = .ok ⟨some .keyless⟩ := by decide +kernel
  have halike := read_alike [Cascade.keyless.stretches.flatMap Stretch.otherwise]
  rw [hread, List.flatten_singleton] at halike
  have hregion := halike.eq_ok
  obtain ⟨c, written, hc, hwritten, hlength, _, hflat, _, hagain, _⟩ := encode_of_ofBytes hregion
  cases hc
  have hne : Cascade.keyless.stretches.flatMap Stretch.written
      ≠ Cascade.keyless.stretches.flatMap Stretch.otherwise := by decide +kernel
  exact ⟨hregion, written, hwritten, hflat ▸ hne, hlength, hagain⟩

/-! ## What was cut off -/

/-- A stream that breaks off within a stored form has ended: what is there is not refused, since
the whole is accepted, and it is not the whole. -/
theorem streamEnded_of_cut {c : Cascade} {chunks : List (List UInt8)} {rest : List UInt8}
    (h : Cascade.Storable true c.top c.deeper) (hcut : chunks.flatten ++ rest = c.encode)
    (hrest : rest ≠ []) : StreamEnded (read ⟨chunks⟩) := by
  have hcases := read_cases chunks rest
  rw [hcut, ofBytes_encode h] at hcases
  rcases hcases with ⟨c', stored, left, hfront, ⟨_, hstored⟩, _, hregion⟩ | ⟨_, _, _, hregion⟩
    | ⟨hread, _⟩
  · -- What was found is as long as the whole, so nothing would be cut off.
    cases hregion
    have hlength := hstored.length_eq
    rw [c.flatMap_written, ← hcut, hfront] at hlength
    simp only [List.length_append] at hlength
    exact absurd (List.eq_nil_of_length_eq_zero (by omega)) hrest
  · cases hregion
  · exact streamEnded_iff.mpr hread

/-- What is built can be stored. -/
theorem exists_build_storable {ks : Keyset} {config : Config} (hlimits : ks.WithinLimits)
    (hvalid : config.Valid) :
    ∃ c ks', Dictionary.build ks config = .ok (⟨some c⟩, ks')
      ∧ Cascade.Storable true c.top c.deeper := by
  have hbytes := Keyset.bytesOf_strings_lt hlimits
  obtain ⟨c, hbuild, ⟨hlays, htops⟩, hstorable⟩ := Cascade.build_and
    (Cascade.build_spec config (config.levels - 1) .forward ks.strings hbytes)
    (Cascade.build_storable config (config.levels - 1) .forward ks.strings hbytes)
  obtain ⟨ks', hks', _⟩ := Dictionary.build_of_tells hvalid hbuild ⟨hlays, htops rfl⟩
  have hcount : config.levels - 1 < Config.maxLevels := by
    have hmax := hvalid.2
    have hmin : 1 ≤ config.levels := hvalid.1
    omega
  exact ⟨c, ks', hks', (hstorable (Keyset.length_strings_lt hlimits) hcount).1⟩

/-- The stored form of a dictionary that was built says where it ends: with whatever bytes behind
it, it restores the dictionary, and cut off anywhere it ends, for a stream and for a region. -/
theorem encode_self_delimiting {ks : Keyset} {config : Config} (hlimits : ks.WithinLimits)
    (hvalid : config.Valid) :
    ∃ d ks' bytes, Dictionary.build ks config = .ok (d, ks') ∧ d.encode = .ok bytes
      ∧ (∀ (chunks : List (List UInt8)) (more : List UInt8), chunks.flatten = bytes ++ more →
        read ⟨chunks⟩ = .ok d)
      ∧ (∀ more, ofBytes (bytes ++ more) = .ok d)
      ∧ ∀ front, front <+: bytes → front ≠ bytes →
        (∀ chunks : List (List UInt8), chunks.flatten = front → StreamEnded (read ⟨chunks⟩))
          ∧ RegionEnded (ofBytes front) := by
  obtain ⟨c, ks', hbuild, hstorable⟩ := exists_build_storable hlimits hvalid
  refine ⟨⟨some c⟩, ks', c.encode, hbuild, rfl, fun _ _ => read_encode_append hstorable,
    ofBytes_encode_append hstorable, ?_⟩
  rintro front ⟨rest, hfront⟩ hne
  have hrest : rest ≠ [] := by
    rintro rfl
    rw [List.append_nil] at hfront
    exact hne hfront
  have hstream : ∀ chunks : List (List UInt8), chunks.flatten = front →
      StreamEnded (read ⟨chunks⟩) := by
    rintro chunks rfl
    exact streamEnded_of_cut hstorable hfront hrest
  have hwhole : [front].flatten = front := List.flatten_singleton
  have hregion := (read_alike [front]).ended_iff.mp (hstream [front] hwhole)
  rw [hwhole] at hregion
  exact ⟨hstream, hregion⟩

/-- A stored form with a byte behind it, without its last byte, and without any. -/
theorem encode_self_delimiting_two_levels : ∃ d ks' bytes,
    Dictionary.build (.ofList [[97, 0, 98, 99], [100, 0, 98, 99], []]) { levels := 2 }
        = .ok (d, ks')
      ∧ d.encode = .ok bytes
      ∧ read ⟨[bytes, [255]]⟩ = .ok d ∧ ofBytes (bytes ++ [255]) = .ok d
      ∧ StreamEnded (read ⟨[bytes.dropLast]⟩) ∧ RegionEnded (ofBytes bytes.dropLast)
      ∧ StreamEnded (read ⟨[]⟩) ∧ RegionEnded (ofBytes []) := by
  have hlimits : (Keyset.ofList [[97, 0, 98, 99], [100, 0, 98, 99], []]).WithinLimits := by decide
  have hvalid : ({ levels := 2 } : Config).Valid := by decide
  obtain ⟨d, ks', bytes, hbuild, hbytes, hread, hregion, hcut⟩ :=
    encode_self_delimiting hlimits hvalid
  have hnil : bytes ≠ [] := by
    rintro rfl
    cases hregion []
  have hshorter : bytes.dropLast ≠ bytes := by
    intro heq
    have hlength := congrArg List.length heq
    have hpos := List.length_pos_iff.mpr hnil
    rw [List.length_dropLast] at hlength
    omega
  obtain ⟨hread', hregion'⟩ := hcut bytes.dropLast (List.dropLast_prefix bytes) hshorter
  obtain ⟨hempty, hempty'⟩ := hcut [] List.nil_prefix hnil.symm
  refine ⟨d, ks', bytes, hbuild, hbytes, hread _ [255] ?_, hregion [255], hread' _ ?_, hregion',
    hempty _ rfl, hempty'⟩
  · simp
  · exact List.flatten_singleton

end Dictionary

end Lexicon
