/-
Lexicon.Proofs.Search.Settings — of a configuration only the order of siblings shows.

The first level is the tree of the keys, and which tree it is depends on the order of the
siblings alone. The other settings say where the labels of its links are kept and which
edges are remembered, and two cascades that tell one tree serve all requests alike
(`Dictionary.serveAll_of_tells`). What is left are the ids in the keyset and the counts:
they are read off the first level too, so each of them is a number of the tree
(`Cascade.ids_eq`, `numKeys_eq`, `numNodes_eq`).
-/
import Lexicon.Proofs.Search.Requests

namespace Lexicon

namespace Cascade

variable {c : Cascade} {s : Shape}

theorem numNodes_eq (h : c.Tells s) : c.top.numNodes = s.nodes.length :=
  h.lays.numNodes_eq

/-- The ids that building gives to the entries are the numbers of the keys in the tree. -/
theorem ids_eq {order : SiblingOrder} {strings : List (List UInt8 × Weight)}
    (h : c.Tells (Shape.ofStrings order .forward strings)) :
    (Shape.ofStrings order .forward strings).ends.map c.top.terminals.rank1
      = (Shape.ofStrings order .forward strings).ends.map
        (Level.keyNumber (Shape.ofStrings order .forward strings)) := by
  apply List.map_congr_left
  intro v hv
  obtain ⟨i, hi⟩ := List.mem_iff_getElem?.mp hv
  have hlt : i < strings.length := by
    have hlength := Shape.length_ends (Shape.ofStrings order .forward strings)
    have hsome := (List.getElem?_eq_some_iff.mp hi).1
    rw [hlength] at hsome
    exact hsome
  obtain ⟨v', hend, hspells⟩ :=
    Shape.ends_getElem? order .forward (List.getElem?_eq_getElem hlt)
  rw [hi] at hend
  obtain rfl := Option.some.inj hend
  exact rank1_terminals h (h.lays.sound.lt_length_of_spells hspells)

end Cascade

/-- Building makes a cascade that tells the tree of the keys, and writes into the keyset the numbers
that the keys have there. -/
theorem Dictionary.build_tree {ks : Keyset} {config : Config} (hlimits : ks.WithinLimits)
    (hvalid : config.Valid) :
    ∃ c, Dictionary.build ks config = .ok (⟨some c⟩,
        ks.withIds ((Shape.ofStrings config.order .forward ks.strings).ends.map
          (Level.keyNumber (Shape.ofStrings config.order .forward ks.strings))))
      ∧ c.Tells (Shape.ofStrings config.order .forward ks.strings) := by
  obtain ⟨c, hbuild, htells⟩ := Cascade.exists_build_tells config (config.levels - 1) hlimits
  refine ⟨c, ?_, htells⟩
  rw [← Cascade.ids_eq htells]
  exact Cascade.build_of_ends hvalid hbuild

namespace Dictionary

/-- Two configurations with one order of siblings, whatever else they say, give the entries of a
keyset the same ids and make dictionaries with as many keys and nodes. Whichever of the two serves
each request of a row, the outcome and the whole agent after it, with its key and its id, are those
of the row served by the first alone. -/
theorem serveAll_of_same_order {ks : Keyset} {config config' : Config}
    (hlimits : ks.WithinLimits) (hvalid : config.Valid) (hvalid' : config'.Valid)
    (horder : config'.order = config.order) :
    ∃ d d' ks', Dictionary.build ks config = .ok (d, ks')
      ∧ Dictionary.build ks config' = .ok (d', ks') ∧ ks.SameKeys ks'
      ∧ d'.numKeys = d.numKeys ∧ d'.numNodes = d.numNodes
      ∧ ∀ (a : Agent) (schedule : List (Dictionary × Request)),
        a.searchState.progress = .fresh → (∀ x ∈ schedule, x.1 = d ∨ x.1 = d') →
        serveAll a schedule = serveAll a (schedule.map fun x => (d, x.2)) := by
  obtain ⟨c, hbuild, htells⟩ := build_tree hlimits hvalid
  obtain ⟨c', hbuild', htells'⟩ := build_tree hlimits hvalid'
  rw [horder] at hbuild' htells'
  refine ⟨⟨some c⟩, ⟨some c'⟩, _, hbuild, hbuild', ?_, ?_, ?_, ?_⟩
  · apply Keyset.sameKeys_withIds
    rw [List.length_map, Shape.length_ends]
    exact List.length_map _
  · exact (Cascade.numKeys_eq htells').trans (Cascade.numKeys_eq htells).symm
  · exact (Cascade.numNodes_eq htells').trans (Cascade.numNodes_eq htells).symm
  · intro a schedule hfresh hall
    exact serveAll_of_tells htells htells' (Agent.stands_of_fresh hfresh) hall

/-- Three levels with a text tail and one level with a binary tail and a cache of another size take
turns in a search for extensions. -/
theorem serveAll_of_same_order_turns : ∃ d d' ks',
    Dictionary.build (.ofList [[97, 98, 99, 100], [97], [97, 98, 99, 100, 101]]) {} = .ok (d, ks')
      ∧ Dictionary.build (.ofList [[97, 98, 99, 100], [97], [97, 98, 99, 100, 101]])
          { levels := 1, cache := .huge, tail := .binary } = .ok (d', ks')
      ∧ d'.numKeys = d.numKeys ∧ d'.numNodes = d.numNodes
      ∧ serveAll {} [(d', .setQuery [97, 98]), (d', .extensionSearch), (d, .extensionSearch),
          (d', .extensionSearch), (d', .lookup)]
        = serveAll {} [(d, .setQuery [97, 98]), (d, .extensionSearch), (d, .extensionSearch),
          (d, .extensionSearch), (d, .lookup)] := by
  have hlimits : (Keyset.ofList
      [[97, 98, 99, 100], [97], [97, 98, 99, 100, 101]]).WithinLimits := by decide
  have hvalid : ({} : Config).Valid := by decide
  have hvalid' : ({ levels := 1, cache := .huge, tail := .binary } : Config).Valid := by decide
  obtain ⟨d, d', ks', hbuild, hbuild', _, hkeys, hnodes, hall⟩ :=
    serveAll_of_same_order hlimits hvalid hvalid' rfl
  exact ⟨d, d', ks', hbuild, hbuild', hkeys, hnodes, hall {} _ rfl (by simp)⟩

end Dictionary

end Lexicon
