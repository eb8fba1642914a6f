/-
Lexicon.Proofs.Cascade.Navigation — the levels can be walked up and down, and say the same both ways.

On the first level a search goes down: it tries the children of a node in turn, and which these are
is told by `louds` alone (`scan?_eq_tryEach?`). On every level a search goes up, from a node to the
one above, as far as a child of the root. `Level.labelsUp?` collects the strings of the edges on the
way, and `Level.labelsUp?_of_spells` says that they spell the node's word from its last edge to its
first, by induction on the word. What the word means for the strings of the level is
`Shape.StandsFor`.
-/
import Lexicon.Proofs.Cascade.Depth
import Lexicon.Proofs.Level.Navigation
import Lexicon.Proofs.Shape.Forks
import Lexicon.Proofs.Shape.Siblings

namespace Lexicon

/-! ## What a node stands for -/

/-- Node `v` of the tree of some strings stands for a word: it is made from all strings that are
read with the word first, the strings that end there are those that are read as the word, and the
word is empty, one of the strings, or what two of them have in common before they part. -/
structure Shape.StandsFor (order : SiblingOrder) (reading : Reading)
    (strings : List (List UInt8 × Weight)) (v : Nat) (w : List UInt8) : Prop where
  made : ∃ ps, (ofStrings order reading strings).nodes[v]? = some (.ofPending order ps)
    ∧ Reaching (readBy reading strings) w ps
  ends : ∀ (i : Nat) (string : List UInt8) (weight : Weight), strings[i]? = some (string, weight) →
    ((ofStrings order reading strings).ends[i]? = some v ↔ reading.read string = w)
  stops : w = [] ∨ Stops (wordsOf reading strings) w

theorem Shape.Spells.standsFor {order : SiblingOrder} {reading : Reading}
    {strings : List (List UInt8 × Weight)} {v : Nat} {w : List UInt8}
    (h : (ofStrings order reading strings).Spells v w) : StandsFor order reading strings v w where
  made := by
    obtain ⟨ps, _, hnode, hreaching⟩ := exists_reaching_read h
    exact ⟨ps, hnode, hreaching⟩
  ends := by
    intro i string weight hget
    obtain ⟨x, hend, hx⟩ := ends_getElem? order reading hget
    rw [hend, Option.some.injEq]
    constructor
    · rintro rfl
      exact hx.unique h
    · rintro rfl
      exact (ofStrings_sound order reading strings).eq_of_spells hx h
  stops := exists_spells_iff.mp ⟨v, h⟩

/-! ## Up -/

namespace Level

/-- The strings of the edges on the way up from a node to a child of the root, the first one met
first, given the strings of the links. -/
def labelsUp? (l : Level) (restore : Nat → Option (List UInt8)) (v : Nat) :
    Option (List (List UInt8)) := do
  let label ← restorePiece? restore (← l.piece? v)
  if v ≤ l.rootDegree then
    some [label]
  else
    let parent ← l.parent? v
    if parent < v then (labelsUp? l restore parent).map (label :: ·) else none
termination_by v

variable {l : Level} {reading : Reading} {s : Shape} {resolves : Nat → List UInt8 → Prop}
  {restore : Nat → Option (List UInt8)}

theorem labelsUp?_eq {v : Nat} {piece : Piece} {label : List UInt8}
    (hpiece : l.piece? v = some piece) (hlabel : restorePiece? restore piece = some label) :
    l.labelsUp? restore v = if v ≤ l.rootDegree then some [label]
      else (l.parent? v).bind fun u =>
        if u < v then (l.labelsUp? restore u).map (label :: ·) else none := by
  rw [labelsUp?, hpiece]
  simp only [Option.bind_eq_bind, Option.bind_some, hlabel]

/-- On the way up the labels of a node's word are met, from the last to the first. -/
theorem labelsUp?_of_spells (h : l.Lays reading s resolves)
    (hrestore : ∀ target string, resolves target string → restore target = some string) {v : Nat}
    {w : List UInt8} (hv : s.Spells v w) (hne : v ≠ 0) :
    ∃ labels, l.labelsUp? restore v = some labels
      ∧ (labels.map reading.read).reverse.flatten = w := by
  induction hv with
  | root => exact absurd rfl hne
  | @down u v w e hu he ih =>
    obtain ⟨piece, hpiece, hspells⟩ := h.piece? he
    rw [labelsUp?_eq hpiece (restorePiece?_of_spells hrestore hspells)]
    have hread : reading.read (reading.read e.label) = e.label := by
      cases reading with
      | forward => rfl
      | backward => exact List.reverse_reverse e.label
    by_cases hroot : v ≤ l.rootDegree
    · obtain rfl := (h.le_rootDegree_iff he).mp hroot
      refine ⟨_, if_pos hroot, ?_⟩
      rw [eq_nil_of_spells_zero hu, List.map_singleton, hread]
      simp
    · have hu' : u ≠ 0 := mt (h.le_rootDegree_iff he).mpr hroot
      obtain ⟨labels, hlabels, hword⟩ := ih hu'
      refine ⟨reading.read e.label :: labels, ?_, ?_⟩
      · rw [if_neg hroot, h.parent? he, Option.bind_some, if_pos (h.sound.lt_of_enters he), hlabels,
          Option.map_some]
      · rw [List.map_cons, hread, List.reverse_cons, List.flatten_append, hword]
        simp

end Level

namespace Cascade

/-! ## Down -/

/-- Tries the edges into the given nodes, one after the other; `next` is where the search stays once
none is left, and `lastLink` the number of the last link tried. -/
def tryEach? (c : Cascade) (check : Check) (copies : Bool) (query : List UInt8) :
    (next : Nat) → List Nat → (lastLink : Option Nat) → Option Step
  | next, [], _ => some ⟨.apart, next⟩
  | _, node :: nodes, lastLink => do
    if (← c.top.links.get? node) then
      let kept ← nextNumber lastLink (c.top.links.rank1? node)
      let number ← check c.top.links node kept
      let agreement ← c.followLink? copies (← c.top.linkTarget? node number) query
      if agreement.fits || 0 < agreement.used then some ⟨agreement, node⟩
      else tryEach? c check copies query (node + 1) nodes (some number)
    else
      let base ← c.top.bases[node]?
      if query.head? = some base then some ⟨.passed copies [base], node⟩
      else tryEach? c check copies query (node + 1) nodes lastLink

/-- Going on from a bit, a scan tries the nodes whose ones follow. -/
theorem scan?_eq_tryEach? {c : Cascade} (check : Check) (copies : Bool) (query : List UInt8)
    {nodes : List Nat} : ∀ {position node : Nat} {lastLink : Option Nat},
      c.top.siblingsFrom? position node = some nodes →
      c.scan? check copies query position node lastLink
        = c.tryEach? check copies query node nodes lastLink := by
  induction nodes with
  | nil =>
    intro position node lastLink h
    obtain ⟨hlt, ⟨hbit, _⟩ | ⟨_, rest, hrest, _⟩⟩ := Level.siblingsFrom?_cases h
    · exact scan?_stop hlt hbit
    · cases hrest
  | cons first nodes ih =>
    intro position node lastLink h
    obtain ⟨hlt, ⟨_, hnil⟩ | ⟨hbit, rest, hcons, hnext⟩⟩ := Level.siblingsFrom?_cases h
    · cases hnil
    · obtain ⟨rfl, rfl⟩ := List.cons.inj hcons
      rw [scan?, tryEach?]
      simp only [hlt, hbit, if_true, Option.bind_eq_bind, Option.bind_some, ih hnext]

variable {order : SiblingOrder} {strings : List (List UInt8 × Weight)} {reading : Reading}
  {s : Shape} {level : Level} {deeper : List Level}

namespace StandsOn

theorem tops (h : StandsOn .forward s level deeper) : level.Tops s := by
  obtain ⟨targets, hlaid⟩ := h.laid
  rw [hlaid]
  exact Level.tops_ofShape h.lays.sound h.lays.size_lt

/-- The children by the bits are those that edges enter. -/
theorem childOf_iff (h : StandsOn reading s level deeper) {u v : Nat} :
    level.ChildOf u v ↔ ∃ e, s.Enters u e v := by
  obtain ⟨targets, hlaid⟩ := h.laid
  rw [hlaid]
  exact Level.childOf_ofShape_iff h.lays.sound h.lays.size_lt

/-- Each node takes two bits and a byte, and one of the bits is a one. -/
theorem counts (h : StandsOn reading s level deeper) :
    level.bases.size = level.numNodes ∧ level.louds.size = 2 * level.numNodes + 2
      ∧ level.louds.ones = level.numNodes := by
  rw [h.lays.numNodes_eq]
  obtain ⟨targets, hlaid⟩ := h.laid
  refine ⟨?_, h.lays.size_louds, ?_⟩
  · rw [hlaid]
    exact Level.size_bases_ofShape h.lays.sound
  · rw [hlaid]
    exact Shape.count_true_loudsBits h.lays.sound

/-- Going up from a node leads to the node that it is a child of, which has a lesser number. -/
theorem parent_childOf (h : StandsOn reading s level deeper) {v : Nat} (hpos : 0 < v)
    (hv : v < level.numNodes) : ∃ u, level.parent? v = some u ∧ u < v
      ∧ ∀ u', level.ChildOf u' v ↔ u' = u := by
  obtain ⟨u, e, he, hparent, hlt⟩ := h.lays.exists_parent hpos hv
  refine ⟨u, hparent, hlt, ?_⟩
  intro u'
  rw [h.childOf_iff, ← h.lays.parent?_eq_some_iff hpos hv, hparent, Option.some.injEq]
  exact eq_comm

/-- The children of the root come first. -/
theorem childOf_root_iff (h : StandsOn reading s level deeper) {v : Nat} :
    level.ChildOf 0 v ↔ 1 ≤ v ∧ v ≤ level.rootDegree := by
  rw [h.childOf_iff]
  constructor
  · rintro ⟨e, he⟩
    exact ⟨he.pos, (h.lays.le_rootDegree_iff he).mpr rfl⟩
  · rintro ⟨hpos, hle⟩
    rw [h.lays.rootDegree_eq] at hle
    have hchild := Shape.exists_child (show v - 1 < s.degree 0 by omega)
    rwa [Shape.firstChild_zero, Nat.add_sub_cancel' hpos] at hchild

/-- The children of a node of the first level, found by going on from its zero, are consecutive, and
a search that leaves the node tries them in turn. -/
theorem children (h : StandsOn .forward s level deeper) {v : Nat} (hv : v < level.numNodes) :
    ∃ position count, level.louds.select0? v = some position
      ∧ level.children? v = some (List.range' (position - v) count)
      ∧ (∀ child, child ∈ List.range' (position - v) count ↔ level.ChildOf v child)
      ∧ (∀ child ∈ List.range' (position - v) count, level.parent? child = some v)
      ∧ ∀ check copies query,
        scan? ⟨level, deeper⟩ check copies query (position + 1) (position - v) none
        = tryEach? ⟨level, deeper⟩ check copies query (position - v)
          (List.range' (position - v) count) none := by
  rw [h.lays.numNodes_eq] at hv
  have hselect := h.tops.select0? hv
  have hchildren := Level.children?_eq h.lays h.tops hv
  refine ⟨s.firstChild v + v, s.degree v, hselect, ?_⟩
  rw [Nat.add_sub_cancel]
  refine ⟨hchildren, fun child => Shape.mem_children_iff.trans h.childOf_iff.symm, ?_, ?_⟩
  · intro child hchild
    obtain ⟨e, he⟩ := Shape.mem_children_iff.mp hchild
    exact h.lays.parent? he
  · intro check copies query
    apply scan?_eq_tryEach?
    rwa [Level.children?, hselect, Option.bind_eq_bind, Option.bind_some, Nat.add_sub_cancel]
      at hchildren

/-- Going up from a node but the root, the labels spell what the node stands for. -/
theorem labelsUp {i : Nat}
    (h : StandsOn (readingAt i) (shapeAt order strings i) level deeper) {v : Nat} (hpos : 0 < v)
    (hv : v < level.numNodes) :
    ∃ labels, level.labelsUp? (restoreTarget? level.tail deeper) v = some labels
      ∧ (shapeAt order strings i).Spells v (labels.map (readingAt i).read).reverse.flatten := by
  rw [h.lays.numNodes_eq] at hv
  obtain ⟨w, hw⟩ := h.lays.sound.exists_spells hv
  obtain ⟨labels, hlabels, rfl⟩ := Level.labelsUp?_of_spells h.lays
    (fun _ _ hresolves => hresolves.restore) hw (Nat.pos_iff_ne_zero.mp hpos)
  exact ⟨labels, hlabels, hw⟩

/-- On the first level the labels, the last one met first, are what is read back to the root. -/
theorem spell?_eq {v : Nat} {labels : List (List UInt8)} (h : StandsOn .forward s level deeper)
    (hv : s.Spells v (labels.map Reading.forward.read).reverse.flatten) :
    (moves ⟨level, deeper⟩).spell? v = some labels.reverse.flatten := by
  have htells : Tells ⟨level, deeper⟩ s := ⟨h.lays, h.tops⟩
  have hspell := Moves.spell?_of_spells htells.follow hv
  rwa [show labels.map Reading.forward.read = labels from List.map_id labels] at hspell

/-- On a deeper level the labels in the order in which they are met are what a link is restored to. -/
theorem restoreUp?_eq {v : Nat} {labels : List (List UInt8)} (h : StandsOn .backward s level deeper)
    (hpos : 0 < v) (hv : s.Spells v (labels.map Reading.backward.read).reverse.flatten) :
    level.restoreUp? (restoreTarget? level.tail deeper) v = some labels.flatten := by
  have hrestore := Level.restoreUp?_of_spells h.lays (fun _ _ hresolves => hresolves.restore) hv
    (Nat.pos_iff_ne_zero.mp hpos)
  have hreverse : (labels.map Reading.backward.read).reverse.flatten = labels.flatten.reverse :=
    List.reverse_flatten.symm
  rwa [hreverse, List.reverse_reverse] at hrestore

end StandsOn

end Cascade

namespace Dictionary

/-- The moves on every level agree. A level has a byte, a one and two bits for each node, and two
bits more. From a node that is not the root going up leads to a lesser node, the only one that it is
a child of, and the children of the root are the first nodes. The labels met on the way up to one of
these, each as the level reads it and the last one met first, make what the node stands for. On the
first level the children found by going on from the zero of a node are consecutive, from the place
of the zero less the node's number on; they are those that lead back to it, and those that a search
tries in turn. The labels are also those of which a key is restored from its id, and a string from
its link. -/
theorem build_navigation {ks : Keyset} {config : Config} (hlimits : ks.WithinLimits)
    (hvalid : config.Valid) :
    ∃ c ks', Dictionary.build ks config = .ok (⟨some c⟩, ks') ∧ ks.SameKeys ks'
      ∧ (∀ (above : List Level) (level : Level) (deeper : List Level),
        c.levels = above ++ level :: deeper →
        (level.bases.size = level.numNodes ∧ level.louds.size = 2 * level.numNodes + 2
          ∧ level.louds.ones = level.numNodes)
        ∧ (∀ v, 0 < v → v < level.numNodes → ∃ u, level.parent? v = some u ∧ u < v
          ∧ ∀ u', level.ChildOf u' v ↔ u' = u)
        ∧ (∀ v, level.ChildOf 0 v ↔ 1 ≤ v ∧ v ≤ level.rootDegree)
        ∧ ∀ v, 0 < v → v < level.numNodes → ∃ labels,
          level.labelsUp? (Cascade.restoreTarget? level.tail deeper) v = some labels
          ∧ Shape.StandsFor config.order (Cascade.readingAt above.length)
            (Cascade.stringsAt config.order ks.strings above.length) v
            (labels.map (Cascade.readingAt above.length).read).reverse.flatten
          ∧ (above = [] → c.moves.spell? v = some labels.reverse.flatten)
          ∧ (above ≠ [] → level.restoreUp? (Cascade.restoreTarget? level.tail deeper) v
            = some labels.flatten))
      ∧ ∀ v, v < c.top.numNodes → ∃ position count, c.top.louds.select0? v = some position
        ∧ c.top.children? v = some (List.range' (position - v) count)
        ∧ (∀ child, child ∈ List.range' (position - v) count ↔ c.top.ChildOf v child)
        ∧ (∀ child ∈ List.range' (position - v) count, c.top.parent? child = some v)
        ∧ ∀ check copies query,
          c.scan? check copies query (position + 1) (position - v) none
          = c.tryEach? check copies query (position - v) (List.range' (position - v) count)
            none := by
  obtain ⟨c, ks', hbuild, hsame, hlaid⟩ := exists_build hvalid
    (Cascade.build_laid config (config.levels - 1) .forward ks.strings
      (Keyset.bytesOf_strings_lt hlimits))
  refine ⟨c, ks', hbuild, hsame, ?_, ?_⟩
  · intro above level deeper hsplit
    rw [hsplit] at hlaid
    have hstands := hlaid.standsOn
    refine ⟨hstands.counts, fun _ hpos hv => hstands.parent_childOf hpos hv,
      fun _ => hstands.childOf_root_iff, ?_⟩
    intro v hpos hv
    obtain ⟨labels, hlabels, hspells⟩ := hstands.labelsUp hpos hv
    refine ⟨labels, hlabels, hspells.standsFor, ?_⟩
    cases above with
    | nil =>
      obtain ⟨rfl, rfl⟩ := List.cons.inj hsplit
      exact ⟨fun _ => hstands.spell?_eq hspells, fun hne => absurd rfl hne⟩
    | cons first above => exact ⟨nofun, fun _ => hstands.restoreUp?_eq hpos hspells⟩
  · intro v hv
    exact hlaid.1.children hv

/-- Nodes 3 and 4 are those below the node of `ab`; from node 3 up the labels are `c` and `ab`, and
the node stands for `abc`. -/
theorem build_navigation_abc : ∃ c ks',
    Dictionary.build (.ofList [[97, 98, 99], [120, 98, 99], [97, 98, 100]]) { levels := 2 }
        = .ok (⟨some c⟩, ks')
      ∧ c.top.children? 1 = some [3, 4]
      ∧ c.top.labelsUp? (Cascade.restoreTarget? c.top.tail c.deeper) 3 = some [[99], [97, 98]]
      ∧ Shape.StandsFor ({ levels := 2 } : Config).order .forward
        (Keyset.ofList [[97, 98, 99], [120, 98, 99], [97, 98, 100]]).strings 3 [97, 98, 99] := by
  obtain ⟨c, ks', hbuild, _, hlevels, _⟩ := build_navigation
    (show (Keyset.ofList [[97, 98, 99], [120, 98, 99], [97, 98, 100]]).WithinLimits by decide)
    (show ({ levels := 2 } : Config).Valid by decide)
  have hread : (match Dictionary.build (.ofList [[97, 98, 99], [120, 98, 99], [97, 98, 100]])
      { levels := 2 } with
      | .ok (⟨some c⟩, _) => (c.top.numNodes, c.top.children? 1,
        c.top.labelsUp? (Cascade.restoreTarget? c.top.tail c.deeper) 3)
      | _ => (0, none, none)) = (5, some [3, 4], some [[99], [97, 98]]) := by decide +kernel
  rw [hbuild] at hread
  obtain ⟨hnodes, hrest⟩ := Prod.mk.inj hread
  obtain ⟨hchildren, hup⟩ := Prod.mk.inj hrest
  obtain ⟨_, _, _, hlabels⟩ := hlevels [] c.top c.deeper rfl
  obtain ⟨labels, hlabels, hstands, _⟩ := hlabels 3 (by decide) (by rw [hnodes]; decide)
  obtain rfl := Option.some.inj (hup.symm.trans hlabels)
  exact ⟨c, ks', hbuild, hchildren, hup, hstands⟩

end Dictionary

end Lexicon
