/-
Lexicon.Proofs.Cascade.Guarding — what a step may take for granted of the levels.

A walk reads by checked access, so an answer says that every bit, byte and slot it asked for
was there. Some of what it does in between is not checked: it subtracts a number from a
position, it finds a slot by the low bits of a number, it climbs from a node to the one
above, and it goes to whatever place a link names. `Level.Guarded` says of a level that all
this is well-defined, of every node and slot and not only of those that some query leads
to; `Level.Opens` says it of the children of a node of the first level. A link has to lead
to a node below the root of the next level, or into the tail (`Cascade.Guarded`). Both hold
of all that is built: `Level.guarded_ofShape` asks of the targets only that they are there,
and `Cascade.build_guarded` finds them at the ends of the labels.
-/
import Lexicon.Proofs.Wire.Storing

namespace Lexicon

/-- A byte, or a link to a place that is there. -/
def Piece.Leads (there : Nat → Prop) : Piece → Prop
  | .byte _ => True
  | .link target => there target

theorem Piece.leads_of_spells {there : Nat → Prop} {piece : Piece} {string : List UInt8}
    (h : piece.Spells (fun target _ => there target) string) : piece.Leads there := by
  cases piece with
  | byte b => trivial
  | link target => exact h

namespace Level

/-- The slots of a level can be found by a mask, its positions fit 32 bits, every node but the root
has a parent with a lesser number, which is the root for the children of the root alone, and what
the edges spell, from the level or from a slot, leads to places that are there. -/
structure Guarded (l : Level) (there : Nat → Prop) : Prop where
  slots : Wire.isPowerOfTwo l.cache.size = true
  size_louds_lt : l.louds.size < 2 ^ 32
  size_bases : l.bases.size = l.numNodes
  size_links : l.links.size = l.numNodes
  parent : ∀ {v : Nat}, 0 < v → v < l.numNodes →
    ∃ u, l.louds.select1? v = some (v + u + 1) ∧ u < v ∧ (v ≤ l.rootDegree ↔ u = 0)
  piece : ∀ {v : Nat}, 0 < v → v < l.numNodes →
    ∃ piece, l.piece? v = some piece ∧ piece.Leads there
  slot : ∀ {k : Nat} {slot : Slot}, l.cache[k]? = some slot →
    slot.parent = 0xFFFFFFFF ∧ slot.child = 0xFFFFFFFF
    ∨ slot.parent.toNat < slot.child.toNat ∧ slot.child.toNat < l.numNodes
      ∧ slot.piece.Leads there

/-- Every node of the first level has a place where the bits of its children begin, not before its
number, and every node can be asked for its key. -/
structure Opens (l : Level) : Prop where
  children : ∀ {u : Nat}, u < l.numNodes →
    ∃ position, l.louds.select0? u = some position ∧ u ≤ position ∧ position + 1 < l.louds.size
  size_terminals : l.terminals.size = l.numNodes + 1

variable {l : Level} {reading : Reading} {s : Shape} {targets : List Nat} {tail : Tail}
  {config : Config} {there : Nat → Prop}

/-- A laid-out level is guarded if its targets are there. -/
theorem guarded_ofShape (hsound : s.Sound) (hsize : 2 * s.nodes.length + 2 < 2 ^ 32)
    (h : Resolved reading s targets fun target _ => there target) :
    (ofShape reading s targets tail config).Guarded there := by
  have hlays : (ofShape reading s targets tail config).Lays reading s fun target _ => there target :=
    lays_ofShape hsound hsize h
  have hnodes : (ofShape reading s targets tail config).numNodes = _ := numNodes_ofShape hsound
  refine
    { slots := ?slots
      size_louds_lt := by rwa [size_louds_ofShape hsound]
      size_bases := (size_bases_ofShape hsound).trans hnodes.symm
      size_links := (size_links_ofShape hsound).trans hnodes.symm
      parent := ?parent
      piece := ?piece
      slot := ?slot }
  case slots =>
    rw [size_cache_ofShape]
    exact isPowerOfTwo_slotCount _ _ _
  case parent =>
    intro v hpos hv
    rw [hnodes] at hv
    obtain ⟨u, e, he⟩ := hsound.exists_enters hpos hv
    exact ⟨u, louds_select1?_ofShape hsound hsize he, hsound.lt_of_enters he,
      hlays.le_rootDegree_iff he⟩
  case piece =>
    intro v hpos hv
    rw [hnodes] at hv
    obtain ⟨u, e, he⟩ := hsound.exists_enters hpos hv
    obtain ⟨piece, hpiece, hspells⟩ := hlays.piece? he
    exact ⟨piece, hpiece, Piece.leads_of_spells hspells⟩
  case slot =>
    intro k slot hslot
    rcases hlays.cache hslot with hcleared | ⟨u, v, e, he, hparent, hchild, _, hspells⟩
    · exact Or.inl hcleared
    · rw [hparent, hchild, hnodes]
      exact Or.inr ⟨hsound.lt_of_enters he, hsound.lt_length he, Piece.leads_of_spells hspells⟩

/-- The children of a node begin behind its own zero, and a zero that guards the end follows. -/
theorem opens_ofShape (hsound : s.Sound) (hsize : 2 * s.nodes.length + 2 < 2 ^ 32) :
    (ofShape .forward s targets tail config).Opens := by
  have hnodes : (ofShape .forward s targets tail config).numNodes = _ := numNodes_ofShape hsound
  have htops : (ofShape .forward s targets tail config).Tops s := tops_ofShape hsound hsize
  refine ⟨?_, by rw [htops.size_terminals, hnodes]⟩
  intro u hu
  rw [hnodes] at hu
  have hedges := hsound.length_nodes
  have hlast : s.firstChild u ≤ s.firstChild s.nodes.length := Shape.firstChild_le (Nat.le_of_lt hu)
  have hchildren : s.firstChild s.nodes.length = s.edges.length + 1 := by
    rw [Shape.firstChild, ← length_pendings, ← Shape.map_below_edges, List.length_map]
  refine ⟨_, htops.select0? hu, Nat.le_add_left u _, ?_⟩
  rw [size_louds_ofShape hsound]
  omega

/-- Clearing the cache leaves a level guarded. -/
theorem Guarded.withoutCache (h : l.Guarded there) : l.withoutCache.Guarded there :=
  { h with
    slots := by
      rw [size_withoutCache_cache]
      exact h.slots
    slot := by
      intro k slot hslot
      obtain ⟨old, _, rfl⟩ := withoutCache_getElem? hslot
      exact Or.inl ⟨rfl, rfl⟩ }

theorem Opens.withoutCache (h : l.Opens) : l.withoutCache.Opens :=
  ⟨h.children, h.size_terminals⟩

end Level

namespace Cascade

/-- Every level is guarded, its links leading to nodes below the root of the next level, and those
of the last level into its tail. -/
inductive Guarded : Level → List Level → Prop
  | last {level : Level} : level.Guarded (· < level.tail.bytes.size) → Guarded level []
  | above {level next : Level} {deeper : List Level} :
    level.Guarded (fun target => 0 < target ∧ target < next.numNodes) → Guarded next deeper →
    Guarded level (next :: deeper)

theorem Guarded.withoutCache {level : Level} {deeper : List Level} (h : Guarded level deeper) :
    Guarded level.withoutCache (deeper.map (·.withoutCache)) := by
  induction h with
  | last hlevel => exact .last hlevel.withoutCache
  | above hlevel _ ih => exact .above hlevel.withoutCache ih

/-- What is restored from a tail begins inside it. -/
theorem lt_of_resolves_tail {tail : Tail} {target : Nat} {string : List UInt8}
    (h : Resolves tail [] target string) : target < tail.bytes.size := by
  have hrestore : tail.restore? target = some string := h.restore
  by_contra hlt
  rw [Tail.restore?, dif_neg hlt] at hrestore
  cases hrestore

/-- Whatever is built is guarded on all levels, and the nodes of the first can be opened. -/
theorem build_guarded (config : Config) (more : Nat) (reading : Reading)
    (strings : List (List UInt8 × Weight)) (hbytes : bytesOf strings < 2 ^ 30) :
    ∃ c, build config more reading strings
        = .ok (c, (Shape.ofStrings config.order reading strings).ends)
      ∧ Guarded c.top c.deeper ∧ (reading = .forward → c.top.Opens)
      ∧ c.top.numNodes = (Shape.ofStrings config.order reading strings).nodes.length := by
  have hopens : ∀ {reading : Reading} {strings : List (List UInt8 × Weight)} {targets : List Nat}
      {tail : Tail} {config' : Config}, bytesOf strings < 2 ^ 30 → reading = .forward →
      (Level.ofShape reading (Shape.ofStrings config.order reading strings) targets tail
        config').Opens := by
    rintro reading strings targets tail config' hbytes rfl
    exact Level.opens_ofShape (Shape.ofStrings_sound config.order .forward strings)
      (size_lt config.order .forward hbytes)
  refine build_induction config (motive := fun _ reading strings c =>
    Guarded c.top c.deeper ∧ (reading = .forward → c.top.Opens)
      ∧ c.top.numNodes = (Shape.ofStrings config.order reading strings).nodes.length)
    ?alone ?last ?above more reading strings hbytes
  case alone =>
    intro more reading strings hbytes hempty
    have hsound := Shape.ofStrings_sound config.order reading strings
    have hsize := size_lt config.order reading hbytes
    exact ⟨.last (Level.guarded_ofShape hsound hsize (resolved_of_no_labels hempty _)),
      hopens hbytes, Level.numNodes_ofShape hsound⟩
  case last =>
    intro reading strings tail positions hbytes _ htail
    have hsound := Shape.ofStrings_sound config.order reading strings
    have hsize := size_lt config.order reading hbytes
    have hresolved := (resolved_of_last hbytes htail).imp fun _ _ => lt_of_resolves_tail
    exact ⟨.last (Level.guarded_ofShape hsound hsize hresolved), hopens hbytes,
      Level.numNodes_ofShape hsound⟩
  case above =>
    rintro more reading strings below hbytes _ ⟨hbelow, _, hnodes⟩
    have hsound := Shape.ofStrings_sound config.order reading strings
    have hsize := size_lt config.order reading hbytes
    have hlabels := bytesOf_labelsOf_lt config.order reading hbytes
    have hresolved : Level.Resolved reading (Shape.ofStrings config.order reading strings)
        (Shape.ofStrings config.order .backward
          (labelsOf reading (Shape.ofStrings config.order reading strings))).ends
        fun target _ => 0 < target ∧ target < below.top.numNodes := by
      intro k label weight hlabel
      obtain ⟨v, hend, hlt, hv, hspells⟩ := exists_end_of_label config.order hlabels hlabel
      refine ⟨v, hend, hlt, Nat.pos_of_ne_zero hv, ?_⟩
      rw [hnodes]
      exact (Shape.ofStrings_sound config.order .backward _).lt_length_of_spells hspells
    exact ⟨.above (Level.guarded_ofShape hsound hsize hresolved) hbelow, hopens hbytes,
      Level.numNodes_ofShape hsound⟩

end Cascade

end Lexicon
