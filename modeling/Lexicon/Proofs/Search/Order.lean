/-
Lexicon.Proofs.Search.Order — the order in which the search for extensions gives the keys.

The search gives the keys in the order of the siblings of every node
(`Dictionary.exists_hits_ranked`), so what is left is what that order is. Siblings that are
not sorted by weight stand by their bytes, and then the keys come sorted. With natural
weights, siblings sorted by weight stand by the sums of the weights below them, and these
are sums over the entries (`Keyset.weightBelow`), which do not depend on where the edges of
the tree end.
-/
import Lexicon.Proofs.Search.Extensions
import Lexicon.Proofs.Shape.Siblings

namespace Lexicon

namespace Keyset

variable {ks : Keyset}

/-- The sum of the weights of all entries whose strings start with the given bytes. -/
def weightBelow (ks : Keyset) (front : List UInt8) : Nat :=
  ((ks.entries.toList.filter fun entry => front.isPrefixOf entry.bytes).map (·.weight.toNat)).sum

/-- Behind some bytes the keys that go on with the first byte have more weight together than those
that go on with the second, or as much and the first byte is less. -/
def Outweighs (ks : Keyset) (front : List UInt8) (a b : UInt8) : Prop :=
  ks.weightBelow (front ++ [b]) < ks.weightBelow (front ++ [a])
    ∨ (ks.weightBelow (front ++ [a]) = ks.weightBelow (front ++ [b]) ∧ a < b)

theorem weightBelow_strings (ks : Keyset) (front : List UInt8) :
    Lexicon.weightBelow ks.strings front = ks.weightBelow front := by
  rw [Lexicon.weightBelow, strings, List.filter_map, List.map_map]
  rfl

theorem outweighs_strings (ks : Keyset) : Lexicon.Outweighs ks.strings = ks.Outweighs := by
  funext front a b
  rw [Lexicon.Outweighs, Outweighs]
  simp only [weightBelow_strings]

end Keyset

namespace Dictionary

/-- The search gives the keys that start with the query in the order of the siblings of the tree. -/
theorem exists_hits_ranked {ks : Keyset} {config : Config} (hlimits : ks.WithinLimits)
    (hvalid : config.Valid) :
    ∃ d ks', Dictionary.build ks config = .ok (d, ks') ∧ ks.SameKeys ks'
      ∧ ∀ (a : Agent) (query : List UInt8), ∃ hits, (hits.map Prod.fst).Nodup
        ∧ (∀ word, word ∈ hits.map Prod.fst ↔ word ∈ ks.keys ∧ query <+: word)
        ∧ Delivers d.extensionSearch (a.setQuery query) hits
        ∧ ∀ ranks, (Shape.ofStrings config.order .forward ks.strings).Ranked ranks →
          (hits.map Prod.fst).Pairwise (Precedes ranks) := by
  obtain ⟨c, hbuild, htells⟩ := Cascade.exists_build_tells config (config.levels - 1) hlimits
  obtain ⟨ks', hks', hsame, hindexes⟩ := Dictionary.build_of_tells hvalid hbuild htells
  refine ⟨⟨some c⟩, ks', hks', hsame, ?_⟩
  intro a query
  obtain ⟨hits, hnodup, hmem, hdelivers, horder⟩ :=
    Cascade.exists_hits_in_order hindexes.tells (a.searchState_setQuery query)
  obtain ⟨hwords, _⟩ := hindexes.words_of_hits hmem
  rw [hsame.keys_eq] at hwords
  exact ⟨hits, hnodup, hwords, hdelivers, horder⟩

/-- With siblings in label order a search gives the keys in strictly increasing order of their
bytes, a proper front before what goes on from it, whatever the weights are. -/
theorem extensionSearch_label_order {ks : Keyset} {config : Config} (hlimits : ks.WithinLimits)
    (hvalid : config.Valid) (horder : config.order = .label) :
    ∃ d ks', Dictionary.build ks config = .ok (d, ks') ∧ ks.SameKeys ks'
      ∧ ∀ (a : Agent) (query : List UInt8), ∃ hits,
        (∀ word, word ∈ hits.map Prod.fst ↔ word ∈ ks.keys ∧ query <+: word)
        ∧ Delivers d.extensionSearch (a.setQuery query) hits
        ∧ (hits.map Prod.fst).Pairwise (· < ·) := by
  have hranked : (Shape.ofStrings config.order .forward ks.strings).Ranked fun _ a b => a < b := by
    rw [horder]
    exact Shape.ranked_by_label
  obtain ⟨d, ks', hbuild, hsame, hall⟩ := exists_hits_ranked hlimits hvalid
  refine ⟨d, ks', hbuild, hsame, ?_⟩
  intro a query
  obtain ⟨hits, _, hmem, hdelivers, hpairwise⟩ := hall a query
  exact ⟨hits, hmem, hdelivers, (hpairwise _ hranked).imp Precedes.lt⟩

/-- A front comes before what goes on from it with a zero byte, and a byte above 127 comes last,
although its key weighs most and another weighs no number at all. -/
theorem extensionSearch_high_byte_last : ∃ d ks' hits,
    Dictionary.build ⟨#[{ bytes := [200], weight := ⟨0x7F800000⟩ },
      { bytes := [97, 98], weight := ⟨0x7FC00000⟩ }, { bytes := [97, 0] }, { bytes := [97] }]⟩
        .sorted = .ok (d, ks')
      ∧ [[97], [97, 0]].Sublist (hits.map Prod.fst)
      ∧ [[97, 98], [200]].Sublist (hits.map Prod.fst)
      ∧ Delivers d.extensionSearch (({} : Agent).setQuery []) hits := by
  have hlimits : (⟨#[{ bytes := [200], weight := ⟨0x7F800000⟩ },
      { bytes := [97, 98], weight := ⟨0x7FC00000⟩ }, { bytes := [97, 0] },
      { bytes := [97] }]⟩ : Keyset).WithinLimits := by decide
  obtain ⟨d, ks', hbuild, _, hall⟩ := extensionSearch_label_order hlimits
    (show Config.sorted.Valid by decide) rfl
  obtain ⟨hits, hmem, hdelivers, hsorted⟩ := hall {} []
  have hasymm : ∀ x y : List UInt8, x < y → ¬y < x := fun _ _ => List.lt_asymm
  refine ⟨d, ks', hits, hbuild, ?_, ?_, hdelivers⟩
  · exact (pair_sublist_iff hasymm hsorted ((hmem _).mpr (by decide)) ((hmem _).mpr (by decide))
      (by decide)).mpr (by decide)
  · exact (pair_sublist_iff hasymm hsorted ((hmem _).mpr (by decide)) ((hmem _).mpr (by decide))
      (by decide)).mpr (by decide)

/-- With natural weights that are small enough together, and siblings by weight, a search gives one
of two keys before the other exactly if it is a proper front of it, or if where the two part the
keys that go its way have more weight together, or as much and its byte is less. -/
theorem extensionSearch_weight_order {ks : Keyset} {config : Config} (hlimits : ks.WithinLimits)
    (hvalid : config.Valid) (horder : config.order = .weight)
    (hnatural : ∀ entry ∈ ks.entries.toList, entry.weight.Natural)
    (htotal : ks.weightBelow [] < 2 ^ 24) :
    ∃ d ks', Dictionary.build ks config = .ok (d, ks') ∧ ks.SameKeys ks'
      ∧ ∀ (a : Agent) (query : List UInt8), ∃ hits, (hits.map Prod.fst).Nodup
        ∧ (∀ word, word ∈ hits.map Prod.fst ↔ word ∈ ks.keys ∧ query <+: word)
        ∧ Delivers d.extensionSearch (a.setQuery query) hits
        ∧ ∀ x ∈ hits.map Prod.fst, ∀ y ∈ hits.map Prod.fst, x ≠ y →
          ([x, y].Sublist (hits.map Prod.fst) ↔ Precedes ks.Outweighs x y) := by
  have hranked : (Shape.ofStrings config.order .forward ks.strings).Ranked ks.Outweighs := by
    rw [horder, ← Keyset.outweighs_strings]
    refine Shape.ranked_by_weight ?_ (by rwa [Keyset.weightBelow_strings])
    intro x hx
    obtain ⟨entry, hentry, rfl⟩ := List.mem_map.mp hx
    exact hnatural entry hentry
  have hasymm : ∀ x y, Precedes ks.Outweighs x y → ¬Precedes ks.Outweighs y x := by
    rw [← Keyset.outweighs_strings]
    exact fun x y hxy => hxy.asymm Outweighs.asymm
  obtain ⟨d, ks', hbuild, hsame, hall⟩ := exists_hits_ranked hlimits hvalid
  refine ⟨d, ks', hbuild, hsame, ?_⟩
  intro a query
  obtain ⟨hits, hnodup, hmem, hdelivers, hpairwise⟩ := hall a query
  refine ⟨hits, hnodup, hmem, hdelivers, ?_⟩
  intro x hx y hy hne
  exact pair_sublist_iff hasymm (hpairwise _ hranked) hx hy hne

/-- The front comes first, then the branch whose two entries weigh three together, although its byte
is greater than that of the branch that weighs two. -/
theorem extensionSearch_heavier_branch : ∃ d ks' hits,
    Dictionary.build ⟨#[{ bytes := [97, 98], weight := ⟨0x40000000⟩ },
      { bytes := [97, 99, 100], weight := ⟨0x40000000⟩ }, { bytes := [97], weight := ⟨0⟩ },
      { bytes := [97, 99, 101], weight := ⟨0x3F800000⟩ }]⟩ {} = .ok (d, ks')
      ∧ [[97], [97, 99, 101]].Sublist (hits.map Prod.fst)
      ∧ [[97, 99, 101], [97, 98]].Sublist (hits.map Prod.fst)
      ∧ Delivers d.extensionSearch (({} : Agent).setQuery [97]) hits := by
  have hlimits : (⟨#[{ bytes := [97, 98], weight := ⟨0x40000000⟩ },
      { bytes := [97, 99, 100], weight := ⟨0x40000000⟩ }, { bytes := [97], weight := ⟨0⟩ },
      { bytes := [97, 99, 101], weight := ⟨0x3F800000⟩ }]⟩ : Keyset).WithinLimits := by decide
  have hvalid : ({} : Config).Valid := by decide
  obtain ⟨d, ks', hbuild, _, hall⟩ := extensionSearch_weight_order hlimits hvalid rfl (by decide)
    (by decide)
  obtain ⟨hits, _, hmem, hdelivers, horder⟩ := hall {} [97]
  have ha : [97] ∈ hits.map Prod.fst := (hmem _).mpr (by decide)
  have hab : [97, 98] ∈ hits.map Prod.fst := (hmem _).mpr (by decide)
  have hace : [97, 99, 101] ∈ hits.map Prod.fst := (hmem _).mpr (by decide)
  refine ⟨d, ks', hits, hbuild, ?_, ?_, hdelivers⟩
  · exact (horder _ ha _ hace (by decide)).mpr (Or.inl (by decide))
  · refine (horder _ hace _ hab (by decide)).mpr
      (Or.inr ⟨[97], 99, 98, [101], [], rfl, rfl, by decide, Or.inl (by decide)⟩)

end Dictionary

end Lexicon
