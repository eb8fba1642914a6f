/-
Lexicon.Proofs.Search.Numbers — the ids number the keys breadth first.

The id of a key counts the flagged nodes before its own, so ids stand like nodes
(`Indexes.id_lt_iff`), and the nodes stand layer by layer (`Shape.lt_iff_of_spells`). How deep
a key stands and where the search for all keys comes upon it can both be told without the tree,
from the keys and from what the search delivers.
-/
import Lexicon.Proofs.Search.Blocks
import Lexicon.Proofs.Shape.Layers
import Lexicon.Proofs.Shape.Siblings

namespace Lexicon

@[simp] theorem Keyset.wordsOf_strings (ks : Keyset) :
    Shape.wordsOf .forward ks.strings = ks.keys := by
  rw [Shape.wordsOf, strings, List.map_map]
  rfl

/-- The ids of two keys stand like the nodes that spell them. -/
theorem Shape.id_lt_iff {s : Shape} {z z' id id' : Nat} (h : s.keyAt z = some id)
    (h' : s.keyAt z' = some id') : id < id' ↔ z < z' :=
  (Shape.keyAt_eq_some_iff.mp h).lt_iff (Shape.keyAt_eq_some_iff.mp h')

/-- Of two keys the one with fewer stops on its way has the smaller id, and of two with equally many
the one that the search for all keys gives first. -/
theorem Indexes.id_lt_iff {c : Cascade} {ks ks' : Keyset} {order : SiblingOrder}
    (h : Indexes c (.ofStrings order .forward ks.strings) ks') {all : List (List UInt8 × Nat)}
    (hall : ExtensionsOf (.ofStrings order .forward ks.strings) [] all) {entry other : Entry}
    (hentry : entry ∈ ks'.entries.toList) (hother : other ∈ ks'.entries.toList)
    (hne : entry.bytes ≠ other.bytes) :
    entry.id < other.id ↔ depth ks.keys entry.bytes < depth ks.keys other.bytes
      ∨ (depth ks.keys entry.bytes = depth ks.keys other.bytes
        ∧ [entry.bytes, other.bytes].Sublist (all.map Prod.fst)) := by
  have hsound := h.tells.lays.sound
  have hkeyed := (h.keyed_iff _ _).mpr ⟨entry, hentry, rfl, rfl⟩
  have hkeyed' := (h.keyed_iff _ _).mpr ⟨other, hother, rfl, rfl⟩
  have hmem := (hall.mem_iff hsound).mpr ⟨List.nil_prefix, hkeyed⟩
  have hmem' := (hall.mem_iff hsound).mpr ⟨List.nil_prefix, hkeyed'⟩
  obtain ⟨z, hz, hid⟩ := hkeyed
  obtain ⟨z', hz', hid'⟩ := hkeyed'
  have hnodes := Shape.lt_iff_of_spells hz hz' hne (hall.pairwise hsound Shape.ranked_by_number)
    (List.mem_map_of_mem hmem) (List.mem_map_of_mem hmem')
  rw [Shape.id_lt_iff hid hid', hnodes, Keyset.wordsOf_strings]

namespace Dictionary

/-- The ids number the keys breadth first: of two keys the one with fewer stops on its way has the
smaller id, and of two with equally many the one that the search for all keys gives first, which
in label order is the one with the smaller bytes. -/
theorem build_numbers_breadth_first {ks : Keyset} {config : Config} (hlimits : ks.WithinLimits)
    (hvalid : config.Valid) :
    ∃ d ks' all, Dictionary.build ks config = .ok (d, ks') ∧ ks.SameKeys ks'
      ∧ (all.map Prod.fst).Nodup ∧ (∀ word, word ∈ all.map Prod.fst ↔ word ∈ ks.keys)
      ∧ (∀ a : Agent, Delivers d.extensionSearch (a.setQuery []) all)
      ∧ ∀ entry ∈ ks'.entries.toList, ∀ other ∈ ks'.entries.toList, entry.bytes ≠ other.bytes →
        (entry.id < other.id ↔ depth ks.keys entry.bytes < depth ks.keys other.bytes
          ∨ (depth ks.keys entry.bytes = depth ks.keys other.bytes
            ∧ [entry.bytes, other.bytes].Sublist (all.map Prod.fst)))
        ∧ (config.order = .label →
          ([entry.bytes, other.bytes].Sublist (all.map Prod.fst) ↔ entry.bytes < other.bytes)) := by
  obtain ⟨c, hbuild, htells⟩ := Cascade.exists_build_tells config (config.levels - 1) hlimits
  obtain ⟨ks', hks', hsame, hindexes⟩ := Dictionary.build_of_tells hvalid hbuild htells
  obtain ⟨all, hall, hwords, _, hdelivers⟩ := hindexes.exists_all
  refine ⟨⟨some c⟩, ks', all, hks', hsame, hall.nodup, ?_, hdelivers, ?_⟩
  · intro word
    rw [hwords, hsame.keys_eq]
  · intro entry hentry other hother hne
    refine ⟨hindexes.id_lt_iff hall hentry hother hne, ?_⟩
    intro horder
    have hranked : (Shape.ofStrings config.order .forward ks.strings).Ranked
        fun _ a b => a < b := by
      rw [horder]
      exact Shape.ranked_by_label
    have hkey : ∀ x ∈ ks'.entries.toList, x.bytes ∈ all.map Prod.fst := by
      intro x hx
      exact (hwords _).mpr (List.mem_map_of_mem hx)
    have hsorted := (hall.pairwise htells.lays.sound hranked).imp Precedes.lt
    exact pair_sublist_iff (fun _ _ => List.lt_asymm) hsorted (hkey entry hentry)
      (hkey other hother) hne

/-- One edge leads to `abcd`, and two lead to a key of two bytes, so the short key has the larger
id; `abcde` stands as deep as the short key and comes before it by its first byte. -/
theorem build_numbers_breadth_first_short_key : ∃ d ks', ∃ long longer short : Entry,
    Dictionary.build (.ofList [[98, 1], [97, 98, 99, 100], [98, 2], [97, 98, 99, 100, 101]]) .sorted
        = .ok (d, ks')
      ∧ long.bytes = [97, 98, 99, 100] ∧ longer.bytes = [97, 98, 99, 100, 101]
      ∧ short.bytes = [98, 1] ∧ long ∈ ks'.entries.toList ∧ longer ∈ ks'.entries.toList
      ∧ short ∈ ks'.entries.toList ∧ long.id < longer.id ∧ longer.id < short.id := by
  have hlimits : (Keyset.ofList [[98, 1], [97, 98, 99, 100], [98, 2],
      [97, 98, 99, 100, 101]]).WithinLimits := by decide
  obtain ⟨d, ks', all, hbuild, hsame, _, _, _, hids⟩ := build_numbers_breadth_first hlimits
    (show Config.sorted.Valid by decide)
  have hentry : ∀ key ∈ (Keyset.ofList [[98, 1], [97, 98, 99, 100], [98, 2],
      [97, 98, 99, 100, 101]]).keys, ∃ entry ∈ ks'.entries.toList, entry.bytes = key := by
    intro key hkey
    rw [← hsame.keys_eq] at hkey
    exact List.mem_map.mp hkey
  obtain ⟨long, hlong, hlongBytes⟩ := hentry [97, 98, 99, 100] (by decide)
  obtain ⟨longer, hlonger, hlongerBytes⟩ := hentry [97, 98, 99, 100, 101] (by decide)
  obtain ⟨short, hshort, hshortBytes⟩ := hentry [98, 1] (by decide)
  obtain ⟨hdeeper, _⟩ := hids long hlong longer hlonger (by rw [hlongBytes, hlongerBytes]; decide)
  obtain ⟨hlater, hlabel⟩ := hids longer hlonger short hshort
    (by rw [hlongerBytes, hshortBytes]; decide)
  rw [hlongBytes, hlongerBytes] at hdeeper
  rw [hlongerBytes, hshortBytes] at hlater hlabel
  refine ⟨d, ks', long, longer, short, hbuild, hlongBytes, hlongerBytes, hshortBytes, hlong, hlonger,
    hshort, hdeeper.mpr (Or.inl (by decide)), hlater.mpr (Or.inr ⟨by decide, ?_⟩)⟩
  exact (hlabel rfl).mpr (by decide)

end Dictionary

end Lexicon
