/-
Lexicon.Proofs.Level.Pieces — what a laid-out level says about the edges of its shape.

An edge whose label is one byte is that byte; any other edge is a link, and the links
take the targets in the order of the edges. `Level.linkTarget?_ofShape` says that a
target comes back from its low byte and its extra, `Level.bases_getElem?_ofShape` that
a byte is kept as it is. The number of a link is the number of links before it, which
is also the rank of its node among the link flags (`links_rank1?_ofShape`).
-/
import Lexicon.Level.Basic
import Lexicon.Proofs.Bits.Packing
import Lexicon.Proofs.Bits.Ranks
import Lexicon.Proofs.Shape.Numbering

namespace Lexicon

/-- What an edge spells, given the target for it. -/
def Edge.piece (e : Edge) (target : Nat) : Piece :=
  if e.isLink then .link target else .byte (e.label.headD 0)

theorem Edge.isLink_piece (e : Edge) (target : Nat) : (e.piece target).isLink = e.isLink := by
  rw [Edge.piece]
  split
  · rename_i h
    rw [h]
    rfl
  · rename_i h
    rw [Bool.not_eq_true] at h
    rw [h]
    rfl

/-- The only byte of a label that is not kept elsewhere. -/
theorem Edge.label_eq_singleton {e : Edge} (hne : e.label ≠ []) (h : e.isLink = false) :
    e.label = [e.label.headD 0] := by
  rw [Edge.isLink, decide_eq_false_iff_not] at h
  cases hlabel : e.label with
  | nil => exact absurd hlabel hne
  | cons b rest =>
    rw [hlabel, List.length_cons] at h
    have hrest : rest = [] := List.length_eq_zero_iff.mp (by omega)
    rw [hrest]
    rfl

/-- The number of links among the first edges. -/
def linksBefore (edges : List Edge) (i : Nat) : Nat :=
  (edges.take i).countP (·.isLink)

theorem linksBefore_cons (e : Edge) (edges : List Edge) (i : Nat) :
    linksBefore (e :: edges) (i + 1) = linksBefore edges i + if e.isLink then 1 else 0 := by
  rw [linksBefore, List.take_succ_cons, List.countP_cons]
  rfl

namespace Level

/-! ## The list of pieces -/

theorem piecesOf_append (edges : List Edge) (targets : List Nat) (done : List Piece) :
    piecesOf edges targets done = done.reverse ++ piecesOf edges targets [] := by
  induction edges generalizing targets done with
  | nil => simp [piecesOf]
  | cons e edges ih =>
    rw [piecesOf, piecesOf]
    split
    · rw [ih _ (_ :: done), ih _ [_], List.reverse_cons, List.append_assoc]
      rfl
    · rw [ih _ (_ :: done), ih _ [_], List.reverse_cons, List.append_assoc]
      rfl

/-- The first piece is that of the first edge, and a link uses up a target. -/
theorem piecesOf_cons (e : Edge) (edges : List Edge) (targets : List Nat) :
    piecesOf (e :: edges) targets []
      = e.piece (targets.headD 0)
        :: piecesOf edges (if e.isLink then targets.tail else targets) [] := by
  rw [piecesOf, Edge.piece]
  split
  · rw [piecesOf_append]
    rfl
  · rw [piecesOf_append]
    rfl

theorem piecesOf_getElem? : ∀ {edges : List Edge} {targets : List Nat} {i : Nat} {e : Edge},
    edges[i]? = some e →
    (piecesOf edges targets [])[i]? = some (e.piece (targets.getD (linksBefore edges i) 0))
  | [], _, _, _, h => by simp at h
  | e' :: edges, targets, 0, e, h => by
      obtain rfl : e' = e := by simpa using h
      rw [piecesOf_cons, List.getElem?_cons_zero]
      cases targets <;> rfl
  | e' :: edges, targets, i + 1, e, h => by
      have ih : (piecesOf edges (if e'.isLink then targets.tail else targets) [])[i]?
          = some (e.piece ((if e'.isLink then targets.tail else targets).getD
            (linksBefore edges i) 0)) := piecesOf_getElem? h
      rw [piecesOf_cons, List.getElem?_cons_succ, ih, linksBefore_cons]
      by_cases hlink : e'.isLink
      · rw [if_pos hlink, if_pos hlink]
        cases targets <;> simp
      · rw [if_neg hlink, if_neg hlink, Nat.add_zero]

theorem map_isLink_piecesOf (edges : List Edge) (targets : List Nat) :
    (piecesOf edges targets []).map (·.isLink) = edges.map (·.isLink) := by
  induction edges generalizing targets with
  | nil => rfl
  | cons e edges ih =>
    rw [piecesOf_cons, List.map_cons, List.map_cons, Edge.isLink_piece, ih]

/-- Flagging the links of a list of edges counts them. -/
theorem countBefore_isLink : ∀ (edges : List Edge) (i : Nat),
    countBefore true (edges.map (·.isLink)) i = linksBefore edges i := by
  intro edges i
  rw [countBefore, linksBefore, ← List.map_take, List.count_eq_countP, List.countP_map]
  congr 1
  funext e
  cases h : e.isLink <;> simp [h]

/-- The extra of a link stands behind those of the links before it. -/
theorem filterMap_extra?_getElem? : ∀ {pieces : List Piece} {i target : Nat},
    pieces[i]? = some (.link target) →
    (pieces.filterMap (·.extra?))[countBefore true (pieces.map (·.isLink)) i]?
      = some (target / 256).toUInt32
  | [], _, _, h => by simp at h
  | p :: pieces, 0, target, h => by
      obtain rfl : p = .link target := by simpa using h
      rfl
  | p :: pieces, i + 1, target, h => by
      have ih := filterMap_extra?_getElem? (show pieces[i]? = some (.link target) from h)
      have hcount : countBefore true ((p :: pieces).map (·.isLink)) (i + 1)
          = countBefore true (pieces.map (·.isLink)) i + if p.isLink then 1 else 0 := by
        rw [countBefore, List.map_cons, List.take_succ_cons, List.count_cons]
        simp [countBefore]
      rw [hcount]
      cases p with
      | byte b => exact ih
      | link t => exact ih

/-! ## Links and bytes of a laid-out shape -/

variable {reading : Reading} {s : Shape} {targets : List Nat} {tail : Tail} {config : Config}

/-- What the edges of a shape spell, given the targets of its links. -/
def shapePieces (s : Shape) (targets : List Nat) : List Piece :=
  piecesOf (s.edges.map (·.2)) targets []

/-- The target of the edge into node `v`, if it is a link. -/
def targetOf (s : Shape) (targets : List Nat) (v : Nat) : Nat :=
  targets.getD (linksBefore (s.edges.map (·.2)) (v - 1)) 0

/-- The number of links into nodes before node `v`. -/
def linkNumber (s : Shape) (v : Nat) : Nat :=
  linksBefore (s.edges.map (·.2)) (v - 1)

theorem edge_getElem? {u v : Nat} {e : Edge} (h : s.Enters u e v) :
    (s.edges.map (·.2))[v - 1]? = some e := by
  obtain ⟨i, rfl, hi⟩ := h
  rw [Nat.add_sub_cancel, List.getElem?_map, hi]
  rfl

theorem shapePieces_getElem? (targets : List Nat) {u v : Nat} {e : Edge} (h : s.Enters u e v) :
    (shapePieces s targets)[v - 1]? = some (e.piece (targetOf s targets v)) :=
  piecesOf_getElem? (edge_getElem? h)

/-- The flags of the links: none for the root, one for each edge. -/
theorem map_isLink_shapePieces (s : Shape) (targets : List Nat) :
    (shapePieces s targets).map (·.isLink) = (s.edges.map (·.2)).map (·.isLink) :=
  map_isLink_piecesOf _ _

theorem links_get?_ofShape {u v : Nat} {e : Edge} (h : s.Enters u e v) :
    (ofShape reading s targets tail config).links.get? v = some e.isLink := by
  have hv : v - 1 + 1 = v := by
    have hpos := h.pos
    omega
  show (BitVector.ofBits (false :: (shapePieces s targets).map (·.isLink)) _ _).get? v = _
  rw [BitVector.get?_ofBits, map_isLink_shapePieces, ← hv, List.getElem?_cons_succ, List.getElem?_map,
    edge_getElem? h]
  rfl

/-- Only nodes that are entered by the edge of a link are marked as links. -/
theorem exists_enters_of_links {v : Nat}
    (hv : (ofShape reading s targets tail config).links.get? v = some true) :
    ∃ u e, s.Enters u e v ∧ e.isLink = true := by
  have hbit : (false :: (shapePieces s targets).map (·.isLink))[v]? = some true := by
    rw [← BitVector.get?_ofBits]
    exact hv
  cases v with
  | zero => cases hbit
  | succ i =>
    rw [map_isLink_shapePieces, List.getElem?_cons_succ, List.getElem?_map, List.getElem?_map] at hbit
    obtain ⟨e, he, hlink⟩ := Option.map_eq_some_iff.mp hbit
    obtain ⟨⟨u, e'⟩, hedge, rfl⟩ := Option.map_eq_some_iff.mp he
    exact ⟨u, e', ⟨i, rfl, hedge⟩, hlink⟩

theorem links_rank1?_ofShape (hsize : s.edges.length + 1 < 2 ^ 32) {u v : Nat} {e : Edge}
    (h : s.Enters u e v) :
    (ofShape reading s targets tail config).links.rank1? v = some (linkNumber s v) := by
  have hv : v - 1 + 1 = v := by
    have hpos := h.pos
    omega
  have hlt := (List.getElem?_eq_some_iff.mp (edge_getElem? h)).1
  rw [List.length_map] at hlt
  have hlength : (false :: (s.edges.map (·.2)).map (·.isLink)).length = s.edges.length + 1 := by
    rw [List.length_cons, List.length_map, List.length_map]
  show (BitVector.ofBits (false :: (shapePieces s targets).map (·.isLink)) _ _).rank1? v = _
  rw [map_isLink_shapePieces, BitVector.rank1?_ofBits (by omega) (by omega), linkNumber,
    ← countBefore_isLink, ← hv, Nat.add_sub_cancel]
  refine congrArg some ?_
  rw [countBefore, List.take_succ_cons, List.count_cons_of_ne (by decide)]
  rfl

theorem bases_getElem?_ofShape {u v : Nat} {e : Edge} (h : s.Enters u e v) :
    (ofShape reading s targets tail config).bases[v]?
      = some (e.piece (targetOf s targets v)).base := by
  have hv : v - 1 + 1 = v := by
    have hpos := h.pos
    omega
  have hget : (0 :: (shapePieces s targets).map (·.base))[v - 1 + 1]?
      = some (e.piece (targetOf s targets v)).base := by
    rw [List.getElem?_cons_succ, List.getElem?_map, shapePieces_getElem? targets h]
    rfl
  rw [hv] at hget
  show (0 :: (shapePieces s targets).map (·.base)).toArray[v]? = _
  rw [List.getElem?_toArray, hget]

/-- A target is put together again from its low byte and its extra. -/
theorem linkTarget?_ofShape {u v : Nat} {e : Edge} (h : s.Enters u e v) (hlink : e.isLink = true)
    (htarget : targetOf s targets v < 2 ^ 32) :
    (ofShape reading s targets tail config).linkTarget? v (linkNumber s v)
      = some (targetOf s targets v) := by
  have hpiece : e.piece (targetOf s targets v) = .link (targetOf s targets v) := by
    rw [Edge.piece, if_pos hlink]
  have hpieces := shapePieces_getElem? targets h
  rw [hpiece] at hpieces
  have hextra := filterMap_extra?_getElem? hpieces
  rw [map_isLink_shapePieces, countBefore_isLink] at hextra
  have hget : (ofShape reading s targets tail config).extras.get? (linkNumber s v)
      = some (targetOf s targets v / 256).toUInt32 := PackedVector.get?_ofList hextra
  rw [linkTarget?, bases_getElem?_ofShape h, hget, hpiece]
  have hlow : (targetOf s targets v).toUInt8.toNat = targetOf s targets v % 256 := by
    rw [Nat.toUInt8_eq, UInt8.toNat_ofNat']
  have hhigh : (targetOf s targets v / 256).toUInt32.toNat = targetOf s targets v / 256 :=
    toNat_toUInt32 (by omega)
  show some ((targetOf s targets v).toUInt8.toNat
    + 256 * (targetOf s targets v / 256).toUInt32.toNat) = _
  rw [hlow, hhigh, Nat.mod_add_div]

end Level

end Lexicon
