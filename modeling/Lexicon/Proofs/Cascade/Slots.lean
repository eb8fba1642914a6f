/-
Lexicon.Proofs.Cascade.Slots — a slot that is not cleared tells one edge of its level.

A search trusts a slot in which it finds the node that it leaves: it never compares the label with
its query. So the slot has to be the place of one byte only below that node, which it is because the
number of slots is a multiple of 256 (`Cache.edgeSlot_injective`), and what it says of the edge has
to be what the level says (`Level.Repeats`). A slot is filled with what the edge spells when the
level below is done, as the level itself is, from the same targets; and no target reaches the mark
of a byte (`repeats_of_remembers`).
-/
import Lexicon.Proofs.Cascade.Depth
import Lexicon.Proofs.Level.Navigation

namespace Lexicon

namespace Cache

variable {slots : Nat}

/-- A power of two of slots is addressed by the low bits. -/
theorem edgeSlot_eq_and (h : ∃ k, slots = 2 ^ k) (parent : Nat) (label : UInt8) :
    edgeSlot slots parent label = (parent ^^^ (parent <<< 5) ^^^ label.toNat) &&& (slots - 1) := by
  obtain ⟨k, rfl⟩ := h
  exact (Nat.and_two_pow_sub_one_eq_mod _ k).symm

theorem nodeSlot_eq_and (h : ∃ k, slots = 2 ^ k) (child : Nat) :
    nodeSlot slots child = child &&& (slots - 1) := by
  obtain ⟨k, rfl⟩ := h
  exact (Nat.and_two_pow_sub_one_eq_mod _ k).symm

end Cache

namespace Level

/-- A slot says of the node in it what the level says: which node is above it, whether its edge is a
link, and the target of the link or the byte. -/
structure Repeats (l : Level) (slot : Slot) : Prop where
  child : l.ChildOf slot.parent.toNat slot.child.toNat
  parent? : l.parent? slot.child.toNat = some slot.parent.toNat
  lt : slot.parent.toNat < slot.child.toNat
  there : slot.child.toNat < l.numNodes
  isLink : l.links.get? slot.child.toNat = some slot.piece.isLink
  link : ∀ target, slot.piece = .link target → ∃ number,
    l.links.rank1? slot.child.toNat = some number
      ∧ l.linkTarget? slot.child.toNat number = some target
  byte : ∀ b, slot.piece = .byte b → l.bases[slot.child.toNat]? = some b

variable {reading : Reading} {s : Shape} {targets : List Nat} {tail : Tail} {config : Config}
  {resolves : Nat → List UInt8 → Prop}

/-- A slot that names no node is cleared. -/
theorem eq_cleared {slot : Slot} (hparent : slot.parent = 0xFFFFFFFF)
    (hchild : slot.child = 0xFFFFFFFF) : slot = slot.cleared := by
  cases slot
  simp_all [Slot.cleared]

/-- A slot that remembers an edge repeats what the level says of it. -/
theorem repeats_of_remembers (hsound : s.Sound) (hsize : 2 * s.nodes.length + 2 < 2 ^ 32)
    (h : Resolved reading s targets resolves) {slots k : Nat} {slot : Slot}
    (hslot : Remembers reading slots s targets k slot) :
    (ofShape reading s targets tail config).Repeats slot := by
  obtain ⟨u, v, e, he, rfl, rfl, _, hpiece⟩ := hslot
  have hlays : (ofShape reading s targets tail config).Lays reading s resolves :=
    lays_ofShape hsound hsize h
  have hisLink := Edge.isLink_piece e (targetOf s targets slot.child.toNat)
  refine
    { child := (childOf_ofShape_iff hsound hsize).mpr ⟨e, he⟩
      parent? := hlays.parent? he
      lt := hsound.lt_of_enters he
      there := hlays.numNodes_eq ▸ hsound.lt_length he
      isLink := ?isLink
      link := ?link
      byte := ?byte }
  case isLink => rw [hpiece, hisLink, links_get?_ofShape he]
  case link =>
    intro target htarget
    rw [hpiece] at htarget
    have hlink : e.isLink = true := by rw [← hisLink, htarget]; rfl
    obtain ⟨hlt, _⟩ := h.targetOf he hlink
    rw [Slot.targetLimit] at hlt
    rw [Edge.piece, if_pos hlink] at htarget
    rw [← Piece.link.inj htarget]
    exact ⟨_, hlays.links_rank1? he, linkTarget?_ofShape he hlink (by omega)⟩
  case byte =>
    intro b hb
    rw [hpiece] at hb
    rw [bases_getElem?_ofShape he, hb]
    rfl

end Level

namespace Cascade

/-- The slots of a level that are not cleared: each repeats what the level says of an edge and is
the place of that edge. On the level that reads forward no other byte below the node has that place.
-/
def SlotsTell (reading : Reading) (_ : Shape) (level : Level) (deeper : List Level) : Prop :=
  (∃ k, level.cache.size = 2 ^ k) ∧ ∀ k slot, level.cache[k]? = some slot → slot ≠ slot.cleared →
    level.Repeats slot ∧ match reading with
      | .forward => ∃ label b,
        Level.restorePiece? (restoreTarget? level.tail deeper) slot.piece = some label
          ∧ label.head? = some b ∧ k = Cache.edgeSlot level.cache.size slot.parent.toNat b
          ∧ ∀ b', Cache.edgeSlot level.cache.size slot.parent.toNat b' = k → b' = b
      | .backward => k = Cache.nodeSlot level.cache.size slot.child.toNat

variable {order : SiblingOrder} {reading : Reading} {strings : List (List UInt8 × Weight)}
  {targets : List Nat} {tail : Tail} {config : Config} {deeper : List Level}

theorem slotsTell_ofShape (hbytes : bytesOf strings < 2 ^ 30)
    (h : Level.Resolved reading (.ofStrings order reading strings) targets (Resolves tail deeper)) :
    SlotsTell reading (.ofStrings order reading strings)
      (.ofShape reading (.ofStrings order reading strings) targets tail config) deeper := by
  have hsound := Shape.ofStrings_sound order reading strings
  have hsize := size_lt order reading hbytes
  have hedges := hsound.length_nodes
  refine ⟨?_, ?_⟩
  · rw [Level.size_cache_ofShape]
    exact Level.exists_slotCount_eq _ _ _
  · intro k slot hslot huncleared
    have hremembers := (Level.cache_ofShape (by omega) hsound
      (fun he hlink => (h.targetOf he hlink).1) hslot).resolve_left
        fun ⟨hparent, hchild⟩ => huncleared (Level.eq_cleared hparent hchild)
    refine ⟨Level.repeats_of_remembers hsound hsize h hremembers, ?_⟩
    obtain ⟨u, v, e, he, rfl, rfl, hk, hpiece⟩ := hremembers
    cases reading with
    | backward => exact hk
    | forward =>
      obtain ⟨b, rest, hlabel⟩ := List.exists_cons_of_ne_nil (hsound.label_ne_nil he)
      rw [Level.slotOf, hlabel, List.headD_cons] at hk
      refine ⟨e.label, b, ?_, by rw [hlabel, List.head?_cons], hk, ?_⟩
      · rw [hpiece]
        exact Level.restorePiece?_of_spells (fun _ _ hresolves => hresolves.restore)
          (h.piece hsound he)
      · intro b' hb'
        refine Cache.edgeSlot_injective ?_ (hb'.trans hk)
        rw [Level.size_cache_ofShape]
        exact Level.dvd_slotCount _ _

end Cascade

namespace Dictionary

/-- Cache slots tell edges, and each tells one only. On every level the slots are a power of two, so
their places are low bits. A slot that is not cleared names a node and its child; whether the edge
between them is a link, the target of the link and the byte are what the level says of the child. On
the first level the slot is the place of the first byte of the edge's label and of no other byte
below that node; on a deeper level it is the place of the child. -/
theorem build_slots {ks : Keyset} {config : Config} (hlimits : ks.WithinLimits)
    (hvalid : config.Valid) :
    ∃ c ks', Dictionary.build ks config = .ok (⟨some c⟩, ks') ∧ ks.SameKeys ks'
      ∧ ∀ (above : List Level) (level : Level) (deeper : List Level),
        c.levels = above ++ level :: deeper →
        (∀ parent label, Cache.edgeSlot level.cache.size parent label
          = (parent ^^^ (parent <<< 5) ^^^ label.toNat) &&& (level.cache.size - 1))
        ∧ (∀ child, Cache.nodeSlot level.cache.size child = child &&& (level.cache.size - 1))
        ∧ ∀ k slot, level.cache[k]? = some slot → slot ≠ slot.cleared →
          level.Repeats slot
          ∧ (above = [] → ∃ label b,
            Level.restorePiece? (Cascade.restoreTarget? level.tail deeper) slot.piece = some label
              ∧ label.head? = some b ∧ k = Cache.edgeSlot level.cache.size slot.parent.toNat b
              ∧ ∀ b', Cache.edgeSlot level.cache.size slot.parent.toNat b' = k → b' = b)
          ∧ (above ≠ [] → k = Cache.nodeSlot level.cache.size slot.child.toNat) := by
  obtain ⟨c, ks', hbuild, hsame, heach⟩ := exists_build hvalid
    (Cascade.build_each config Cascade.slotsTell_ofShape (config.levels - 1) .forward ks.strings
      (Keyset.bytesOf_strings_lt hlimits))
  refine ⟨c, ks', hbuild, hsame, ?_⟩
  intro above level deeper hsplit
  rw [hsplit] at heach
  obtain ⟨hpower, hslots⟩ := heach.at_split
  refine ⟨Cache.edgeSlot_eq_and hpower, Cache.nodeSlot_eq_and hpower, ?_⟩
  intro k slot hslot huncleared
  obtain ⟨hrepeats, hplace⟩ := hslots k slot hslot huncleared
  cases above with
  | nil => exact ⟨hrepeats, fun _ => hplace, fun hne => absurd rfl hne⟩
  | cons first above => exact ⟨hrepeats, nofun, fun _ => hplace⟩

/-- The slot of the edge of `ab` at the root, a link to node 1 of the second level, is the place of
one byte only. -/
theorem build_slots_link : ∃ c ks' slot,
    Dictionary.build (.ofList [[97, 98, 99], [120, 98, 99], [97, 98, 100]]) { levels := 2 }
        = .ok (⟨some c⟩, ks')
      ∧ c.top.cache[97]? = some slot ∧ slot.parent = 0 ∧ slot.child = 1 ∧ slot.piece = .link 1
      ∧ c.top.Repeats slot
      ∧ ∃ b, ∀ b', Cache.edgeSlot c.top.cache.size slot.parent.toNat b' = 97 ↔ b' = b := by
  obtain ⟨c, ks', hbuild, _, hlevels⟩ := build_slots
    (show (Keyset.ofList [[97, 98, 99], [120, 98, 99], [97, 98, 100]]).WithinLimits by decide)
    (show ({ levels := 2 } : Config).Valid by decide)
  have hslot : (match Dictionary.build (.ofList [[97, 98, 99], [120, 98, 99], [97, 98, 100]])
      { levels := 2 } with
      | .ok (⟨some c⟩, _) => c.top.cache[97]?.map fun slot => (slot.parent, slot.child, slot.piece)
      | _ => none) = some (0, 1, .link 1) := by decide +kernel
  rw [hbuild] at hslot
  obtain ⟨slot, hget, heq⟩ := Option.map_eq_some_iff.mp hslot
  obtain ⟨hparent, hrest⟩ := Prod.mk.inj heq
  obtain ⟨hchild, hpiece⟩ := Prod.mk.inj hrest
  have huncleared : slot ≠ slot.cleared := by
    intro hcleared
    have hsame := congrArg Slot.child hcleared
    rw [hchild] at hsame
    change (1 : UInt32) = 0xFFFFFFFF at hsame
    exact absurd hsame (by decide)
  obtain ⟨_, _, hslots⟩ := hlevels [] c.top c.deeper rfl
  obtain ⟨hrepeats, hplace, _⟩ := hslots 97 slot hget huncleared
  obtain ⟨_, b, _, _, hk, hone⟩ := hplace rfl
  exact ⟨c, ks', slot, hbuild, hget, hparent, hchild, hpiece, hrepeats, b,
    fun b' => ⟨hone b', fun hb => hb ▸ hk.symm⟩⟩

end Dictionary

end Lexicon
