/-
Lexicon.Proofs.Cascade.Nodes — how many nodes the levels have.

A node stands for one word and a word for at most one node, so a tree has as many nodes as its
nodes have words: the empty one, the strings, and the forks (`Shape.length_nodes_eq_card`).
An edge that ended a byte early or late would add a word or miss one. Each level is such a tree,
of the keys or of the labels handed down to it, and `Laid.totalNumNodes` adds the levels up by
induction on them.
-/
import Lexicon.Proofs.Cascade.Levels
import Lexicon.Proofs.Search.Numbers
import Lexicon.Proofs.Shape.Forks
import Mathlib.Algebra.BigOperators.Intervals
import Mathlib.Combinatorics.Enumerative.DoubleCounting

namespace Lexicon

/-- The empty string, the given ones, and those behind which two of the given ones go on with
different bytes. -/
def stopsOf (strings : List (List UInt8)) : Finset (List UInt8) :=
  insert [] ((strings.flatMap List.inits).toFinset.filter (Stops strings ·))

theorem mem_stopsOf_iff {strings : List (List UInt8)} {word : List UInt8} :
    word ∈ stopsOf strings ↔ word = [] ∨ Stops strings word := by
  have hfront : Stops strings word → ∃ x ∈ strings, word <+: x := by
    rintro ⟨_, hmem | ⟨a, _, _, ⟨x, hx, hfront⟩, _⟩⟩
    · exact ⟨word, hmem, List.prefix_refl word⟩
    · exact ⟨x, hx, (List.prefix_append word [a]).trans hfront⟩
  simp only [stopsOf, Finset.mem_insert, Finset.mem_filter, List.mem_toFinset, List.mem_flatMap,
    List.mem_inits]
  exact or_congr_right ⟨And.right, fun h => ⟨hfront h, h⟩⟩

/-- The empty string counts whether it is one of the given ones or not. -/
theorem mem_stopsOf {strings : List (List UInt8)} {word : List UInt8} :
    word ∈ stopsOf strings ↔ word = [] ∨ word ∈ strings ∨ Forks strings word := by
  rw [mem_stopsOf_iff, Stops]
  by_cases hnil : word = [] <;> simp [hnil]

/-- A tree has a node for the empty string, for every string and for every fork, and no others. -/
theorem Shape.length_nodes_eq_card (order : SiblingOrder) (reading : Reading)
    (strings : List (List UInt8 × Weight)) :
    (ofStrings order reading strings).nodes.length
      = (stopsOf (wordsOf reading strings)).card := by
  have hsound := ofStrings_sound order reading strings
  rw [← Finset.card_range (ofStrings order reading strings).nodes.length]
  apply Nat.le_antisymm
  -- Every node spells a word, and no other node spells it.
  · refine Finset.card_le_card_of_forall_subsingleton (ofStrings order reading strings).Spells
      ?_ ?_
    · intro v hv
      obtain ⟨w, hw⟩ := hsound.exists_spells (Finset.mem_range.mp hv)
      exact ⟨w, mem_stopsOf_iff.mpr (exists_spells_iff.mp ⟨v, hw⟩), hw⟩
    · rintro w _ u ⟨_, hu⟩ v ⟨_, hv⟩
      exact hsound.eq_of_spells hu hv
  -- Every word is spelled by a node, and the node spells no other one.
  · refine Finset.card_le_card_of_forall_subsingleton' (ofStrings order reading strings).Spells
      ?_ ?_
    · intro w hw
      obtain ⟨v, hv⟩ := exists_spells_iff.mpr (mem_stopsOf_iff.mp hw)
      exact ⟨v, Finset.mem_range.mpr (hsound.lt_length_of_spells hv), hv⟩
    · rintro v _ w ⟨_, hw⟩ w' ⟨_, hw'⟩
      exact hw.unique hw'

namespace Cascade

/-- The strings of the level with the given number, as the level reads them. -/
def wordsAt (order : SiblingOrder) (strings : List (List UInt8 × Weight)) (i : Nat) :
    List (List UInt8) :=
  Shape.wordsOf (readingAt i) (stringsAt order strings i)

variable {order : SiblingOrder} {strings : List (List UInt8 × Weight)}

/-- The strings of a level are, read back to front, those that the links before it stand for. -/
theorem StandsOn.mem_wordsAt_iff {i : Nat} {level : Level} {deeper : List Level}
    (h : StandsOn (readingAt i) (shapeAt order strings i) level deeper) {word : List UInt8} :
    word ∈ wordsAt order strings (i + 1) ↔ ∃ v target, level.piece? v = some (.link target)
      ∧ restoreTarget? level.tail deeper target = some word.reverse := by
  rw [← h.mem_labelsOf_iff]
  have hwords : wordsAt order strings (i + 1)
      = ((labelsOf (readingAt i) (shapeAt order strings i)).map (·.1)).map List.reverse := by
    rw [List.map_map]
    rfl
  rw [hwords, List.mem_map]
  constructor
  · rintro ⟨label, hlabel, rfl⟩
    rwa [List.reverse_reverse]
  · intro hlabel
    exact ⟨word.reverse, hlabel, List.reverse_reverse word⟩

theorem StandsOn.numNodes_eq {i : Nat} {level : Level} {deeper : List Level}
    (h : StandsOn (readingAt i) (shapeAt order strings i) level deeper) :
    level.numNodes = (stopsOf (wordsAt order strings i)).card :=
  h.lays.numNodes_eq.trans (Shape.length_nodes_eq_card order _ _)

/-- The nodes of a row of levels are those of the trees of their strings, added up. -/
theorem Laid.totalNumNodes {levels : List Level} : ∀ {i : Nat},
    Laid order (readingAt i) (stringsAt order strings i) levels →
    sumOf (levels.map (·.numNodes))
      = ∑ k ∈ Finset.range levels.length, (stopsOf (wordsAt order strings (i + k))).card := by
  induction levels with
  | nil =>
    intro i _
    rfl
  | cons level deeper ih =>
    intro i h
    have hnext : Laid order (readingAt (i + 1)) (stringsAt order strings (i + 1)) deeper := h.2
    have hlevel : level.numNodes = (stopsOf (wordsAt order strings i)).card := h.1.numNodes_eq
    have hdeeper := ih hnext
    rw [List.length_cons, Finset.sum_range_succ', Nat.add_zero]
    show level.numNodes + sumOf (deeper.map (·.numNodes)) = _
    rw [hlevel, hdeeper, Nat.add_comm]
    simp only [Nat.add_assoc, Nat.add_comm 1]

end Cascade

namespace Dictionary

/-- Path compression is exact: a first level has a node for the empty string, for every different
key and for every string behind which two keys go on with different bytes, and no others. Each
deeper level has so many nodes for the labels that the links before it stand for, read back to
front, and all levels together have the sum. -/
theorem build_numNodes {ks : Keyset} {config : Config} (hlimits : ks.WithinLimits)
    (hvalid : config.Valid) :
    ∃ c ks', Dictionary.build ks config = .ok (⟨some c⟩, ks') ∧ ks.SameKeys ks'
      ∧ (∀ words word, word ∈ stopsOf words ↔ word = [] ∨ word ∈ words ∨ Forks words word)
      ∧ numNodes ⟨some c⟩ = (stopsOf ks.keys).card
      ∧ Cascade.wordsAt config.order ks.strings 0 = ks.keys
      ∧ (∀ above level deeper, c.levels = above ++ level :: deeper →
        level.numNodes = (stopsOf (Cascade.wordsAt config.order ks.strings above.length)).card
        ∧ ∀ word, word ∈ Cascade.wordsAt config.order ks.strings (above.length + 1) ↔
          ∃ v target, level.piece? v = some (.link target)
            ∧ Cascade.restoreTarget? level.tail deeper target = some word.reverse)
      ∧ totalNumNodes ⟨some c⟩ = ∑ i ∈ Finset.range c.levels.length,
        (stopsOf (Cascade.wordsAt config.order ks.strings i)).card := by
  obtain ⟨c, ks', hbuild, hsame, hlaid⟩ := exists_build hvalid
    (Cascade.build_laid config (config.levels - 1) .forward ks.strings
      (Keyset.bytesOf_strings_lt hlimits))
  have hkeys := Keyset.wordsOf_strings ks
  refine ⟨c, ks', hbuild, hsame, fun _ _ => mem_stopsOf, ?_, hkeys, ?_, ?_⟩
  · have htop := hlaid.1.lays.numNodes_eq
    rw [Shape.length_nodes_eq_card, hkeys] at htop
    exact htop
  · intro above level deeper hsplit
    rw [hsplit] at hlaid
    have hstands := hlaid.standsOn
    exact ⟨hstands.numNodes_eq, fun _ => hstands.mem_wordsAt_iff⟩
  · have htotal := Cascade.Laid.totalNumNodes (i := 0) hlaid
    simp only [Nat.zero_add] at htotal
    exact htotal

/-- Two of the keys part behind `ab`, and one has its rest in common with the first: the nodes of
the first level are for the empty string, the fork and the keys, and those of the second for the
labels read back to front. -/
theorem build_numNodes_two_levels : ∃ c ks',
    Dictionary.build (.ofList [[97, 98, 99], [120, 98, 99], [97, 98, 100]]) { levels := 2 }
        = .ok (⟨some c⟩, ks')
      ∧ numNodes ⟨some c⟩ = 5 ∧ c.levels.length = 2 ∧ totalNumNodes ⟨some c⟩ = 8 := by
  have hlimits : (Keyset.ofList [[97, 98, 99], [120, 98, 99], [97, 98, 100]]).WithinLimits := by
    decide
  have hvalid : ({ levels := 2 } : Config).Valid := by decide
  obtain ⟨c, ks', hbuild, _, _, hnodes, _, _, htotal⟩ := build_numNodes hlimits hvalid
  have hlength : (match Dictionary.build (.ofList [[97, 98, 99], [120, 98, 99], [97, 98, 100]])
      { levels := 2 } with
      | .ok (⟨some c⟩, _) => c.levels.length
      | _ => 0) = 2 := by decide +kernel
  rw [hbuild] at hlength
  change c.levels.length = 2 at hlength
  refine ⟨c, ks', hbuild, hnodes.trans (by decide +kernel), hlength, ?_⟩
  rw [htotal, hlength]
  decide +kernel

end Dictionary

end Lexicon
