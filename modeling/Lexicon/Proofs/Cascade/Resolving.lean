/-
Lexicon.Proofs.Cascade.Resolving — what a link answers is what its label answers.

Comparing with a link climbs through as many levels as there are and may end in the tail, with
or without the caches. Of all this `Resolves` leaves the comparison with one string,
`Agreement.between`, and that one is told by the common front of the string and the query
(`Agreement.between_eq`): so many bytes are used, whether the comparison succeeds or not.
-/
import Lexicon.Proofs.Cascade.Levels
import Lexicon.Proofs.Keys
import Lexicon.Proofs.Shape.Order

namespace Lexicon

namespace Agreement

/-- A comparison that wants the whole string succeeds if the query starts with it; one that copies
succeeds too if the query ends inside it. The bytes in common are used up. The string is copied if
the comparison succeeds, else the bytes in common. -/
theorem between_eq (copies : Bool) (string query : List UInt8) : between copies string query
    = { fits := decide (string <+: query ∨ copies = true ∧ query <+: string)
        used := (commonPrefix string query).length
        copied :=
          if copies then
            if string <+: query ∨ query <+: string then string else commonPrefix string query
          else [] } := by
  rcases between_cases copies string query with ⟨more, rfl, h⟩ | ⟨more, hmore, rfl, h⟩
    | ⟨front, a, b, s, q, hab, rfl, rfl, h⟩
  · rw [h, commonPrefix_of_front (List.prefix_append string more)]
    simp [passed]
  · have hlonger : ¬query ++ more <+: query := by
      intro hfront
      exact hmore (List.append_right_eq_self.mp (hfront.eq_of_length_le (by simp)))
    rw [h, commonPrefix_of_front_right (List.prefix_append query more)]
    simp [hlonger]
  · have hleft := not_prefix_of_parting hab (p := front) (x := s) (y := q)
    have hright := not_prefix_of_parting hab.symm (p := front) (x := q) (y := s)
    rw [h, commonPrefix_of_parting front hab]
    simp [passed, fail, hleft, hright]

end Agreement

namespace Cascade

/-- What restoring a target and comparing with it come to, if it stands for a label. A comparison
starts at any position of a query that has bytes left. -/
structure Answers (tail : Tail) (deeper : List Level) (target : Nat) (label : List UInt8) :
    Prop where
  /-- The label is restored, no more and no less. -/
  restored : restoreTarget? tail deeper target = some label
  /-- Without copying, the comparison succeeds if the rest of the query starts with the label, and
  uses up the bytes in common either way. -/
  followed : ∀ (query : List UInt8) (position : Nat), position < query.length → ∃ found,
    followTarget? false tail deeper target (query.drop position) = some found
      ∧ (found.fits = true ↔ label <+: query.drop position)
      ∧ (found.fits = true → found.used = label.length)
      ∧ (found.fits = false → found.used = (commonPrefix label (query.drop position)).length)
      ∧ found.copied = []
  /-- With copying, it succeeds if the label and the rest of the query start with one another, and
  then copies the whole label; else it uses up and copies the bytes in common. -/
  copied : ∀ (query : List UInt8) (position : Nat), position < query.length → ∃ found,
    followTarget? true tail deeper target (query.drop position) = some found
      ∧ (found.fits = true ↔ label <+: query.drop position ∨ query.drop position <+: label)
      ∧ (found.fits = true → found.copied = label
        ∧ found.used = min label.length (query.drop position).length)
      ∧ (found.fits = false → found.copied = commonPrefix label (query.drop position)
        ∧ found.used = (commonPrefix label (query.drop position)).length)

theorem Resolves.answers {tail : Tail} {deeper : List Level} {target : Nat} {label : List UInt8}
    (h : Resolves tail deeper target label) : Answers tail deeper target label where
  restored := h.restore
  followed := by
    intro query position hposition
    have hrest : query.drop position ≠ [] := by simpa using hposition
    refine ⟨_, h.follow false _ hrest, ?_⟩
    rw [Agreement.between_eq]
    refine ⟨by simp, ?_, fun _ => rfl, rfl⟩
    intro hfits
    have hfront : label <+: query.drop position := by simpa using hfits
    exact congrArg List.length (commonPrefix_of_front hfront)
  copied := by
    intro query position hposition
    have hrest : query.drop position ≠ [] := by simpa using hposition
    refine ⟨_, h.follow true _ hrest, ?_⟩
    rw [Agreement.between_eq]
    refine ⟨by simp, ?_, ?_⟩
    · intro hfits
      have hcomparable : label <+: query.drop position ∨ query.drop position <+: label := by
        simpa using hfits
      refine ⟨by simp [hcomparable], ?_⟩
      rcases hcomparable with hfront | hfront
      · rw [commonPrefix_of_front hfront, Nat.min_eq_left hfront.length_le]
      · rw [commonPrefix_of_front_right hfront, Nat.min_eq_right hfront.length_le]
    · intro hfails
      have hapart : ¬(label <+: query.drop position ∨ query.drop position <+: label) := by
        simpa using hfails
      exact ⟨by simp [hapart], rfl⟩

end Cascade

namespace Dictionary

/-- Every level of a dictionary is laid out on the tree of its strings, and every node that is
marked as a link is entered by an edge whose label has two bytes or more: its target in the levels
below answers as the label, in the order in which its bytes were handed down, does. -/
theorem build_links_answer {ks : Keyset} {config : Config} (hlimits : ks.WithinLimits)
    (hvalid : config.Valid) :
    ∃ c ks', Dictionary.build ks config = .ok (⟨some c⟩, ks') ∧ ks.SameKeys ks'
      ∧ ∀ above level deeper, c.levels = above ++ level :: deeper →
        (∃ targets, level = .ofShape (Cascade.readingAt above.length)
          (Cascade.shapeAt config.order ks.strings above.length) targets level.tail level.config)
        ∧ ∀ v, level.links.get? v = some true → ∃ u e target,
          (Cascade.shapeAt config.order ks.strings above.length).Enters u e v
            ∧ 2 ≤ e.label.length
            ∧ level.piece? v = some (.link target)
            ∧ Cascade.Answers level.tail deeper target
              ((Cascade.readingAt above.length).read e.label) := by
  obtain ⟨c, hbuild, htells, hlaid⟩ := Cascade.build_and
    (Cascade.exists_build_tells config (config.levels - 1) hlimits)
    (Cascade.build_laid config (config.levels - 1) .forward ks.strings
      (Keyset.bytesOf_strings_lt hlimits))
  obtain ⟨ks', hks', hsame, _⟩ := Dictionary.build_of_tells hvalid hbuild htells
  refine ⟨c, ks', hks', hsame, ?_⟩
  intro above level deeper hsplit
  have hat : Cascade.Laid config.order (Cascade.readingAt 0)
      (Cascade.stringsAt config.order ks.strings 0) (above ++ level :: deeper) := hsplit ▸ hlaid
  have hstands := hat.at_index
  rw [Nat.zero_add] at hstands
  refine ⟨hstands.laid, ?_⟩
  intro v hv
  obtain ⟨u, e, target, he, hlength, htarget, hresolves⟩ := hstands.resolves hv
  exact ⟨u, e, target, he, hlength, htarget, hresolves.answers⟩

/-- Both keys end in `bc`, which the second level keeps in the tail: a query that goes on with `bd`
is left after one byte, and one that ends behind the `b` has the whole of it copied. -/
theorem build_links_answer_second_level : ∃ c ks' level target,
    Dictionary.build (.ofList [[97, 98, 99], [120, 98, 99]]) { levels := 2 } = .ok (⟨some c⟩, ks')
      ∧ c.levels = [c.top, level] ∧ level.piece? 1 = some (.link target)
      ∧ Cascade.restoreTarget? level.tail [] target = some [98, 99]
      ∧ (∃ found, Cascade.followTarget? false level.tail [] target [98, 100] = some found
        ∧ found.fits = false ∧ found.used = 1)
      ∧ ∃ found, Cascade.followTarget? true level.tail [] target [98] = some found
        ∧ found.fits = true ∧ found.copied = [98, 99] ∧ found.used = 1 := by
  have hlimits : (Keyset.ofList [[97, 98, 99], [120, 98, 99]]).WithinLimits := by decide
  have hvalid : ({ levels := 2 } : Config).Valid := by decide
  obtain ⟨c, ks', hbuild, _, hlinks⟩ := build_links_answer hlimits hvalid
  have hmarks : (match Dictionary.build (.ofList [[97, 98, 99], [120, 98, 99]]) { levels := 2 } with
      | .ok (⟨some c⟩, _) => c.deeper.map (·.links.get? 1)
      | _ => []) = [some true] := by decide +kernel
  rw [hbuild] at hmarks
  obtain ⟨level, hlevel, hmark⟩ := List.map_eq_singleton_iff.mp hmarks
  have hlevels : c.levels = [c.top] ++ level :: [] := by rw [Cascade.levels, hlevel]; rfl
  obtain ⟨u, e, target, ⟨i, hi, hedge⟩, _, htarget, hanswers⟩ :=
    (hlinks [c.top] level [] hlevels).2 1 hmark
  obtain rfl : i = 0 := by omega
  have hlabel : (Cascade.shapeAt .weight
      (Keyset.ofList [[97, 98, 99], [120, 98, 99]]).strings 1).edges[0]?.map (·.2.label)
        = some [99, 98] := by decide +kernel
  have hspelled : e.label = [99, 98] := by
    change (Cascade.shapeAt .weight _ 1).edges[0]? = some (u, e) at hedge
    rw [hedge] at hlabel
    exact Option.some.inj hlabel
  have hbc : Cascade.Answers level.tail [] target [98, 99] := by
    rw [hspelled] at hanswers
    exact hanswers
  obtain ⟨found, hfound, hfits, _, hused, _⟩ := hbc.followed [97, 98, 100] 1 (by decide)
  obtain ⟨found', hfound', hfits', hcopied, _⟩ := hbc.copied [98] 0 (by decide)
  have hfails : found.fits = false := by
    rw [← Bool.not_eq_true, hfits]
    decide
  have hcomplete := hcopied (hfits'.mpr (by decide))
  exact ⟨c, ks', level, target, hbuild, hlevels, htarget, hbc.restored,
    ⟨found, hfound, hfails, hused hfails⟩, found', hfound', hfits'.mpr (by decide), hcomplete.1,
    hcomplete.2⟩

end Dictionary

end Lexicon
