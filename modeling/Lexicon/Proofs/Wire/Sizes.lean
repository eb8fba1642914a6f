/-
Lexicon.Proofs.Wire.Sizes — a dictionary is written in as many bytes as it tells.

The size is told level by level, part by part, and the stored form is written piece by piece;
`Cascade.length_encode` says that the two come to the same, for any levels at all. Every part
but the header is made of blobs and of pairs of short numbers, so the size is a multiple of
eight (`Cascade.dvd_wireSize`). A sink that takes only so many bytes takes the first ones of
what is written, in whatever pieces that comes (`writeLimited_eq`), so the size also decides
whether a sink is large enough (`Dictionary.encodeLimited_of_made`).
-/
import Lexicon.Proofs.Wire.Restoring

namespace Lexicon

/-! ## Sinks -/

/-- Pieces that fit into a sink reach it, and of others as many bytes do as it takes. -/
theorem writeLimited_eq (capacity : Nat) (pieces : List (List UInt8)) :
    writeLimited capacity pieces
      = if pieces.flatten.length ≤ capacity then (pieces.flatten, .ok ())
        else (pieces.flatten.take capacity, .error .sinkFull) := by
  induction pieces generalizing capacity with
  | nil => rfl
  | cons piece pieces ih =>
    rw [writeLimited, List.flatten_cons, List.length_append]
    by_cases hpiece : piece.length ≤ capacity
    · rw [if_pos hpiece, ih]
      by_cases hrest : pieces.flatten.length ≤ capacity - piece.length
      · rw [if_pos hrest, if_pos (by omega)]
      · rw [if_neg hrest, if_neg (by omega), List.take_append, List.take_of_length_le hpiece]
    · rw [if_neg hpiece, if_neg (by omega), List.take_append_of_le_length (by omega)]

/-! ## Sizes -/

/-- The header takes two times eight bytes, and the levels take a multiple of eight. -/
theorem Cascade.dvd_wireSize (c : Cascade) : 8 ∣ c.wireSize := by
  have hheader : header.length = 16 := by decide
  have hlevels := Wire.dvd_length_levels c.top c.deeper
  rw [← c.length_encode, encode, pieces, List.flatten_cons, List.length_append, hheader]
  omega

namespace Dictionary

/-- How a dictionary comes by its levels. -/
inductive Made : Dictionary → Prop
  | built {ks ks' : Keyset} {config : Config} {d : Dictionary} : ks.WithinLimits → config.Valid →
    Dictionary.build ks config = .ok (d, ks') → Made d
  | streamed {chunks : List (List UInt8)} {d : Dictionary} : read ⟨chunks⟩ = .ok d → Made d
  | mapped {bytes : List UInt8} {d : Dictionary} : ofBytes bytes = .ok d → Made d
  | cleared {d : Dictionary} : Made d → Made d.withoutCache

/-- Whatever its way, the levels of a dictionary can be stored. -/
theorem Made.exists_storable {d : Dictionary} (h : Made d) :
    ∃ c, d = ⟨some c⟩ ∧ Cascade.Storable true c.top c.deeper := by
  induction h with
  | built hlimits hvalid hbuild =>
    obtain ⟨c, _, hspec, hstorable⟩ := exists_build_storable hlimits hvalid
    rw [hbuild] at hspec
    cases hspec
    exact ⟨c, rfl, hstorable⟩
  | @streamed chunks d hread =>
    have halike := read_alike chunks
    rw [hread] at halike
    obtain ⟨c, _, _, _, ⟨hstorable, _⟩, hd⟩ := found_of_ofBytes halike.eq_ok
    exact ⟨c, hd, hstorable⟩
  | mapped hbytes =>
    obtain ⟨c, _, _, _, ⟨hstorable, _⟩, hd⟩ := found_of_ofBytes hbytes
    exact ⟨c, hd, hstorable⟩
  | cleared _ ih =>
    obtain ⟨c, rfl, hstorable⟩ := ih
    exact ⟨c.withoutCache, rfl, hstorable.withoutCache⟩

/-- Every keyset within the limits is built. A dictionary that was built or restored, with or
without its caches, is written in as many bytes as it tells, a multiple of eight. A sink that takes
so many bytes or more takes all of them; another one takes as many as it can, and writing fails. -/
theorem encodeLimited_of_made :
    (∀ (ks : Keyset) (config : Config), ks.WithinLimits → config.Valid →
      ∃ d ks', Dictionary.build ks config = .ok (d, ks') ∧ Made d)
    ∧ ∀ d, Made d → ∃ bytes, d.encode = .ok bytes ∧ bytes.length = d.wireSize ∧ 8 ∣ d.wireSize
      ∧ (∀ capacity, d.encodeLimited capacity
        = if d.wireSize ≤ capacity then (bytes, .ok ())
          else (bytes.take capacity, .error .sinkFull))
      ∧ Fault.sinkFull.message = "I/O error: failed to write whole buffer" := by
  refine ⟨?_, ?_⟩
  · intro ks config hlimits hvalid
    obtain ⟨c, ks', hbuild, _⟩ := exists_build_storable hlimits hvalid
    exact ⟨⟨some c⟩, ks', hbuild, .built hlimits hvalid hbuild⟩
  · intro d hmade
    obtain ⟨c, rfl, _⟩ := hmade.exists_storable
    refine ⟨c.encode, rfl, c.length_encode, c.dvd_wireSize, ?_, rfl⟩
    intro capacity
    show writeLimited capacity c.pieces = if c.wireSize ≤ capacity then _ else _
    rw [writeLimited_eq, ← c.length_encode]
    rfl

/-- Two levels without their caches take 3800 bytes, so a sink for 3799 lacks the last one. -/
theorem encodeLimited_of_made_cleared : ∃ d ks' bytes,
    Dictionary.build (.ofList [[97, 0, 98, 99], [100, 0, 98, 99], []]) { levels := 2 }
        = .ok (d, ks')
      ∧ d.withoutCache.encode = .ok bytes ∧ bytes.length = 3800
      ∧ d.withoutCache.encodeLimited 3800 = (bytes, .ok ())
      ∧ d.withoutCache.encodeLimited 3799 = (bytes.dropLast, .error .sinkFull) := by
  obtain ⟨hbuilt, hwritten⟩ := encodeLimited_of_made
  obtain ⟨d, ks', hbuild, hmade⟩ :=
    hbuilt (.ofList [[97, 0, 98, 99], [100, 0, 98, 99], []]) { levels := 2 } (by decide) (by decide)
  obtain ⟨bytes, hbytes, hlength, _, hlimited, _⟩ := hwritten d.withoutCache hmade.cleared
  have hsize : (match Dictionary.build (.ofList [[97, 0, 98, 99], [100, 0, 98, 99], []])
      { levels := 2 } with
      | .ok (d, _) => d.withoutCache.wireSize
      | _ => 0) = 3800 := by decide +kernel
  rw [hbuild] at hsize
  change d.withoutCache.wireSize = 3800 at hsize
  rw [hsize] at hlength
  refine ⟨d, ks', bytes, hbuild, hbytes, hlength, ?_, ?_⟩
  · rw [hlimited, hsize]
    rfl
  · rw [hlimited, hsize, List.dropLast_eq_take, hlength]
    rfl

end Dictionary

end Lexicon
