/-
Lexicon.Proofs.Level.Layout — everything a walk reads off a level.

`Level.Lays` says that a level tells the tree of a shape: which node is above which,
what the edge into a node spells, and that a cache slot repeats one of these facts.
`Level.Tops` says what the first level tells besides: where the children of a node
are and where keys end. The walks of the cascade are proved against these two alone;
`lays_ofShape` and `tops_ofShape` are where laid-out levels satisfy them. What a link
stands for is left open: `resolves` relates the targets to the strings that are kept
below the level.
-/
import Lexicon.Proofs.Bits.Selects
import Lexicon.Proofs.Level.Caching
import Lexicon.Proofs.Shape.Louds

namespace Lexicon

/-- The string that a piece stands for, given the strings that targets stand for. -/
def Piece.Spells (resolves : Nat → List UInt8 → Prop) : Piece → List UInt8 → Prop
  | .byte b, string => string = [b]
  | .link target, string => resolves target string

namespace Level

/-- A level tells the tree of a shape. -/
structure Lays (l : Level) (reading : Reading) (s : Shape) (resolves : Nat → List UInt8 → Prop) :
    Prop where
  sound : s.Sound
  size_lt : 2 * s.nodes.length + 2 < 2 ^ 32
  rootDegree_eq : l.rootDegree = s.degree 0
  size_louds : l.louds.size = 2 * s.nodes.length + 2
  louds_get? : ∀ p, l.louds.get? p = s.loudsBits[p]?
  parent? : ∀ {u v : Nat} {e : Edge}, s.Enters u e v → l.parent? v = some u
  links_get? : ∀ {u v : Nat} {e : Edge}, s.Enters u e v → l.links.get? v = some e.isLink
  links_rank1? : ∀ {u v : Nat} {e : Edge}, s.Enters u e v →
    l.links.rank1? v = some (linkNumber s v)
  linkTarget? : ∀ {u v : Nat} {e : Edge}, s.Enters u e v → e.isLink = true →
    ∃ target, l.linkTarget? v (linkNumber s v) = some target ∧ resolves target (reading.read e.label)
  bases_getElem? : ∀ {u v : Nat} {e : Edge}, s.Enters u e v → e.isLink = false →
    ∃ b, l.bases[v]? = some b ∧ e.label = [b]
  cache_pos : 0 < l.cache.size
  /-- A slot is cleared or remembers an edge. -/
  cache : ∀ {k : Nat} {slot : Slot}, l.cache[k]? = some slot →
    slot.parent = 0xFFFFFFFF ∧ slot.child = 0xFFFFFFFF
    ∨ ∃ u v e, s.Enters u e v ∧ slot.parent.toNat = u ∧ slot.child.toNat = v
      ∧ k = slotOf reading l.cache.size u v e ∧ slot.piece.Spells resolves (reading.read e.label)

/-- The number of keys that end at nodes before node `v`. -/
def keyNumber (s : Shape) (v : Nat) : Nat :=
  countBefore true s.terminalBits v

/-- A level tells where the children of nodes are and where keys end. -/
structure Tops (l : Level) (s : Shape) : Prop where
  select0? : ∀ {u : Nat}, u < s.nodes.length → l.louds.select0? u = some (s.firstChild u + u)
  dvd_cache : 256 ∣ l.cache.size
  size_terminals : l.terminals.size = s.nodes.length + 1
  terminals_get? : ∀ v, l.terminals.get? v = s.terminalBits[v]?
  terminals_rank1? : ∀ {v : Nat}, v ≤ s.nodes.length → l.terminals.rank1? v = some (keyNumber s v)
  terminals_select1? : ∀ {id v : Nat}, SelectsAt true s.terminalBits id v →
    l.terminals.select1? id = some v
  terminals_ones : l.terminals.ones = s.terminalBits.count true

variable {reading : Reading} {s : Shape} {targets : List Nat} {tail : Tail} {config : Config}
  {resolves : Nat → List UInt8 → Prop}

/-! ## The targets of a shape -/

theorem filter_isLink_getElem? : ∀ {edges : List (Nat × Edge)} {i : Nat} {x : Nat × Edge},
    edges[i]? = some x → x.2.isLink = true →
    (edges.filter (·.2.isLink))[linksBefore (edges.map (·.2)) i]? = some x
  | [], _, _, h, _ => by simp at h
  | y :: edges, 0, x, h, hlink => by
      obtain rfl : y = x := by simpa using h
      rw [List.filter_cons, if_pos hlink]
      rfl
  | y :: edges, i + 1, x, h, hlink => by
      have ih := filter_isLink_getElem? (show edges[i]? = some x from h) hlink
      rw [List.map_cons, linksBefore_cons, List.filter_cons]
      by_cases hy : y.2.isLink = true
      · rw [if_pos hy, if_pos hy, List.getElem?_cons_succ]
        exact ih
      · rw [if_neg hy, if_neg hy, Nat.add_zero]
        exact ih

/-- The label of a link is the one with the link's number. -/
theorem linkLabels_getElem? {u v : Nat} {e : Edge} (h : s.Enters u e v) (hlink : e.isLink = true) :
    s.linkLabels[linkNumber s v]? = some (e.label, e.weight) := by
  obtain ⟨i, rfl, hi⟩ := h
  rw [Shape.linkLabels, List.getElem?_map, linkNumber, Nat.add_sub_cancel,
    filter_isLink_getElem? hi hlink]
  rfl

/-- Every label that is kept elsewhere has a target below the mark, which stands for it. -/
def Resolved (reading : Reading) (s : Shape) (targets : List Nat)
    (resolves : Nat → List UInt8 → Prop) : Prop :=
  ∀ (k : Nat) (label : List UInt8) (weight : Weight), s.linkLabels[k]? = some (label, weight) →
    ∃ target, targets[k]? = some target ∧ target < Slot.targetLimit
      ∧ resolves target (reading.read label)

theorem Resolved.targetOf (h : Resolved reading s targets resolves) {u v : Nat} {e : Edge}
    (he : s.Enters u e v) (hlink : e.isLink = true) :
    targetOf s targets v < Slot.targetLimit
      ∧ resolves (targetOf s targets v) (reading.read e.label) := by
  obtain ⟨target, hget, hlt, hresolves⟩ := h _ _ _ (linkLabels_getElem? he hlink)
  have htarget : Level.targetOf s targets v = target := by
    rw [Level.targetOf, List.getD_eq_getElem?_getD]
    rw [linkNumber] at hget
    rw [hget]
    rfl
  rw [htarget]
  exact ⟨hlt, hresolves⟩

theorem Resolved.imp {resolves' : Nat → List UInt8 → Prop} (h : Resolved reading s targets resolves)
    (himp : ∀ target string, resolves target string → resolves' target string) :
    Resolved reading s targets resolves' := by
  intro k label weight hlabel
  obtain ⟨target, hget, hlt, hresolves⟩ := h k label weight hlabel
  exact ⟨target, hget, hlt, himp _ _ hresolves⟩

/-- What an edge spells stands for its label. -/
theorem Resolved.piece (h : Resolved reading s targets resolves) (hsound : s.Sound) {u v : Nat}
    {e : Edge} (he : s.Enters u e v) :
    (e.piece (Level.targetOf s targets v)).Spells resolves (reading.read e.label) := by
  rw [Edge.piece]
  cases hlink : e.isLink with
  | true =>
    rw [if_pos rfl]
    exact (h.targetOf he hlink).2
  | false =>
    have hlabel := Edge.label_eq_singleton (hsound.label_ne_nil he) hlink
    rw [if_neg (by decide)]
    show reading.read e.label = [e.label.headD 0]
    rw [hlabel]
    cases reading <;> rfl

/-! ## Laid-out levels -/

theorem rootDegree_ofShape : (ofShape reading s targets tail config).rootDegree = s.degree 0 := by
  show (s.nodes.head?.map (·.edges.length)).getD 0 = _
  rw [List.head?_eq_getElem?]
  rfl

theorem length_piecesOf (edges : List Edge) (targets : List Nat) :
    (piecesOf edges targets []).length = edges.length := by
  have hlength := congrArg List.length (map_isLink_piecesOf edges targets)
  rwa [List.length_map, List.length_map] at hlength

theorem size_louds_ofShape (hsound : s.Sound) :
    (ofShape reading s targets tail config).louds.size = 2 * s.nodes.length + 2 :=
  Shape.length_loudsBits hsound

theorem numNodes_ofShape (hsound : s.Sound) :
    (ofShape reading s targets tail config).numNodes = s.nodes.length := by
  rw [numNodes, size_louds_ofShape hsound]
  omega

theorem length_shapePieces (s : Shape) (targets : List Nat) :
    (shapePieces s targets).length = s.edges.length := by
  rw [shapePieces, length_piecesOf, List.length_map]

theorem size_links_ofShape (hsound : s.Sound) :
    (ofShape reading s targets tail config).links.size = s.nodes.length := by
  show (false :: (shapePieces s targets).map (·.isLink)).length = _
  rw [List.length_cons, List.length_map, length_shapePieces, hsound.length_nodes]

theorem size_bases_ofShape (hsound : s.Sound) :
    (ofShape reading s targets tail config).bases.size = s.nodes.length := by
  show (0 :: (shapePieces s targets).map (·.base)).length = _
  rw [List.length_cons, List.length_map, length_shapePieces, hsound.length_nodes]

/-- The one of a node stands behind one zero for each node up to the one above. -/
theorem louds_select1?_ofShape (hsound : s.Sound) (hsize : 2 * s.nodes.length + 2 < 2 ^ 32)
    {u v : Nat} {e : Edge} (he : s.Enters u e v) :
    (ofShape reading s targets tail config).louds.select1? v = some (v + u + 1) := by
  refine BitVector.select?_ofBits ?_ rfl (Shape.selectsAt_one he)
  rw [Shape.length_loudsBits hsound]
  exact hsize

theorem lays_ofShape (hsound : s.Sound) (hsize : 2 * s.nodes.length + 2 < 2 ^ 32)
    (h : Resolved reading s targets resolves) :
    (ofShape reading s targets tail config).Lays reading s resolves where
  sound := hsound
  size_lt := hsize
  rootDegree_eq := rootDegree_ofShape
  size_louds := by
    show (BitVector.ofBits s.loudsBits _ _).size = _
    rw [BitVector.size_ofBits, Shape.length_loudsBits hsound]
  louds_get? := fun p => BitVector.get?_ofBits p
  parent? := by
    intro u v e he
    rw [Level.parent?, louds_select1?_ofShape hsound hsize he, Option.map_some]
    exact congrArg some (by omega)
  links_get? := links_get?_ofShape
  links_rank1? := by
    intro u v e he
    have hlength := hsound.length_nodes
    exact links_rank1?_ofShape (by omega) he
  linkTarget? := by
    intro u v e he hlink
    obtain ⟨hlt, hresolves⟩ := h.targetOf he hlink
    rw [Slot.targetLimit] at hlt
    exact ⟨_, linkTarget?_ofShape he hlink (by omega), hresolves⟩
  bases_getElem? := by
    intro u v e he hlink
    refine ⟨e.label.headD 0, ?_, Edge.label_eq_singleton (hsound.label_ne_nil he) hlink⟩
    rw [bases_getElem?_ofShape he, Edge.piece, if_neg (by rw [hlink]; decide)]
    rfl
  cache_pos := by
    rw [size_cache_ofShape]
    exact slotCount_pos _ _ _
  cache := by
    intro k slot hslot
    have hlength := hsound.length_nodes
    have htargets : ∀ {u v : Nat} {e : Edge}, s.Enters u e v → e.isLink = true →
        Level.targetOf s targets v < Slot.targetLimit := fun he hlink => (h.targetOf he hlink).1
    rcases cache_ofShape (by omega) hsound htargets hslot with hcleared | ⟨u, v, e, he, hu, hv, hk, hp⟩
    · exact Or.inl hcleared
    · refine Or.inr ⟨u, v, e, he, hu, hv, hk, ?_⟩
      rw [hp]
      exact h.piece hsound he

@[simp] theorem length_terminalBits (s : Shape) : s.terminalBits.length = s.nodes.length + 1 := by
  rw [Shape.terminalBits, List.length_append, List.length_map, List.length_singleton]

theorem tops_ofShape (hsound : s.Sound) (hsize : 2 * s.nodes.length + 2 < 2 ^ 32) :
    (ofShape .forward s targets tail config).Tops s where
  select0? := by
    intro u hu
    refine BitVector.select?_ofBits ?_ rfl (Shape.selectsAt_zero hu)
    rw [Shape.length_loudsBits hsound]
    exact hsize
  dvd_cache := by
    rw [size_cache_ofShape]
    exact dvd_slotCount _ _
  size_terminals := length_terminalBits s
  terminals_get? := fun v => BitVector.get?_ofBits v
  terminals_rank1? := by
    intro v hv
    have hlength := length_terminalBits s
    exact BitVector.rank1?_ofBits (by omega) (by omega)
  terminals_select1? := by
    intro id v hid
    have hlength := length_terminalBits s
    exact BitVector.select?_ofBits (by omega) rfl hid
  terminals_ones := rfl

/-! ## Reading a level -/

/-- What is read as a link is marked as one. -/
theorem links_of_piece? {l : Level} {v target : Nat} (hpiece : l.piece? v = some (.link target)) :
    l.links.get? v = some true := by
  rw [Level.piece?] at hpiece
  cases hmark : l.links.get? v with
  | none => simp [hmark] at hpiece
  | some mark =>
    cases mark with
    | true => rfl
    | false => simp [hmark] at hpiece

namespace Lays

variable {l : Level}

theorem louds_bit (h : l.Lays reading s resolves) {p : Nat} {b : Bool}
    (hbit : s.loudsBits[p]? = some b) : p < l.louds.size ∧ l.louds.get? p = some b := by
  have hlt := (List.getElem?_eq_some_iff.mp hbit).1
  rw [h.size_louds, ← Shape.length_loudsBits h.sound, h.louds_get?]
  exact ⟨hlt, hbit⟩

theorem numNodes_eq (h : l.Lays reading s resolves) : l.numNodes = s.nodes.length := by
  have hsize := h.size_louds
  unfold Level.numNodes
  omega

/-- A link is read as a target that stands for its label. -/
theorem piece?_of_link (h : l.Lays reading s resolves) {u v : Nat} {e : Edge}
    (he : s.Enters u e v) (hlink : e.isLink = true) :
    ∃ target, l.piece? v = some (.link target) ∧ resolves target (reading.read e.label) := by
  obtain ⟨target, htarget, hresolves⟩ := h.linkTarget? he hlink
  refine ⟨target, ?_, hresolves⟩
  rw [Level.piece?, h.links_get? he, hlink]
  simp only [h.links_rank1? he, Option.bind_eq_bind, Option.bind_some, if_true, htarget,
    Option.map_some]

/-- A node is read as what the edge into it spells. -/
theorem piece? (h : l.Lays reading s resolves) {u v : Nat} {e : Edge} (he : s.Enters u e v) :
    ∃ piece, l.piece? v = some piece ∧ piece.Spells resolves (reading.read e.label) := by
  cases hlink : e.isLink with
  | true =>
    obtain ⟨target, htarget, hresolves⟩ := h.piece?_of_link he hlink
    exact ⟨.link target, htarget, hresolves⟩
  | false =>
    obtain ⟨b, hb, hlabel⟩ := h.bases_getElem? he hlink
    refine ⟨.byte b, ?_, ?_⟩
    · rw [Level.piece?, h.links_get? he, hlink]
      simp only [Option.bind_eq_bind, Option.bind_some, Bool.false_eq_true, if_false, hb,
        Option.map_some]
    · rw [hlabel]
      cases reading <;> rfl

/-- The children of the root have the first numbers. -/
theorem le_rootDegree_iff (h : l.Lays reading s resolves) {u v : Nat} {e : Edge}
    (he : s.Enters u e v) : v ≤ l.rootDegree ↔ u = 0 := by
  rw [h.rootDegree_eq]
  obtain ⟨node, j, hnode, hj, rfl⟩ := Shape.enters_iff.mp he
  have hlt := (List.getElem?_eq_some_iff.mp hj).1
  constructor
  · intro hle
    by_contra hu
    have hfirst := Shape.firstChild_succ h.sound.length_pos
    have hmono : s.firstChild (0 + 1) ≤ s.firstChild u := Shape.firstChild_le (by omega)
    rw [hfirst, Shape.firstChild_zero] at hmono
    omega
  · rintro rfl
    rw [Shape.firstChild_zero, Shape.degree_eq hnode]
    omega

/-- A slot that names a node that is there tells the edge into it. -/
theorem slot_of_child (h : l.Lays reading s resolves) {u v k : Nat} {e : Edge} {slot : Slot}
    (he : s.Enters u e v) (hslot : l.cache[k]? = some slot) (hchild : slot.child.toNat = v) :
    slot.parent.toNat = u ∧ slot.piece.Spells resolves (reading.read e.label) := by
  rcases h.cache hslot with ⟨_, hcleared⟩ | ⟨u', v', e', he', hparent, hchild', _, hpiece⟩
  · have hv := h.sound.lt_length he
    have hlt := h.size_lt
    rw [hcleared] at hchild
    have hbig : (0xFFFFFFFF : UInt32).toNat = 4294967295 := rfl
    omega
  · rw [hchild] at hchild'
    subst hchild'
    obtain ⟨rfl, rfl⟩ := he.unique he'
    exact ⟨hparent, hpiece⟩

end Lays

end Level

end Lexicon
