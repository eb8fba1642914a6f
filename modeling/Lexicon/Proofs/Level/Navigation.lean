/-
Lexicon.Proofs.Level.Navigation — the moves between a node and those next to it agree.

What `louds` says of two nodes is read off its bits: `v` is a child of `u` if the bit of `v` stands
among those of `u` (`Level.ChildOf`). Down goes `Level.children?`, over the ones behind the zero of
a node, and it selects a zero; up goes `Level.parent?`, from the one of a node, and it selects a one.
For a level laid out on a tree all three are the edges of the tree: `childOf_ofShape_iff`,
`children?_eq` with `Shape.mem_children_iff`, and `Lays.parent?_eq_some_iff`.
-/
import Lexicon.Proofs.Level.Layout

namespace Lexicon

/-- There is a one for each node: the root has the one above it, and every other node has its own. -/
theorem Shape.count_true_loudsBits {s : Shape} (h : s.Sound) :
    s.loudsBits.count true = s.nodes.length := by
  obtain ⟨_, hones, _⟩ := rows_counts s.nodes
  have hedges := length_pendings s.nodes
  rw [← map_below_edges, List.length_map] at hedges
  have hbits : s.loudsBits.count true = (s.nodes.flatMap rowOf).count true + 1 := by
    rw [loudsBits, List.count_cons_self, List.count_cons_of_ne (by decide), List.count_append,
      List.count_singleton]
    rfl
  rw [hbits, hones, ← hedges, h.length_nodes]

/-- The nodes that the edges of a node enter are consecutive. -/
theorem Shape.mem_children_iff {s : Shape} {u v : Nat} :
    v ∈ List.range' (s.firstChild u) (s.degree u) ↔ ∃ e, s.Enters u e v := by
  rw [List.mem_range'_1]
  constructor
  · rintro ⟨hge, hlt⟩
    obtain ⟨j, rfl⟩ := Nat.exists_eq_add_of_le hge
    exact exists_child (by omega)
  · rintro ⟨e, he⟩
    obtain ⟨j, hj, rfl⟩ := he.exists_offset
    exact ⟨Nat.le_add_right _ _, Nat.add_lt_add_left hj _⟩

namespace Level

/-- Node `v` is a child of node `u`: its one, number `v` of all, stands behind zero number `u` and
before the next zero. -/
def ChildOf (l : Level) (u v : Nat) : Prop :=
  ∃ position, l.louds.get? position = some true ∧ l.louds.rank1? position = some v
    ∧ l.louds.rank0? position = some (u + 1)

/-- The nodes whose ones stand from a position on up to the next zero, given the first of them. -/
def siblingsFrom? (l : Level) (position node : Nat) : Option (List Nat) := do
  if position < l.louds.size then
    if (← l.louds.get? position) then
      (siblingsFrom? l (position + 1) (node + 1)).map (node :: ·)
    else
      some []
  else
    none
termination_by l.louds.size - position

/-- The children of a node, found by going on from its zero. -/
def children? (l : Level) (v : Nat) : Option (List Nat) := do
  let position ← l.louds.select0? v
  l.siblingsFrom? (position + 1) (position - v)

variable {l : Level} {reading : Reading} {s : Shape} {targets : List Nat} {tail : Tail}
  {config : Config} {resolves : Nat → List UInt8 → Prop} {position node : Nat}

theorem siblingsFrom?_stop (hlt : position < l.louds.size)
    (hbit : l.louds.get? position = some false) : l.siblingsFrom? position node = some [] := by
  unfold siblingsFrom?
  simp [hlt, hbit]

theorem siblingsFrom?_next (hlt : position < l.louds.size)
    (hbit : l.louds.get? position = some true) : l.siblingsFrom? position node
      = (l.siblingsFrom? (position + 1) (node + 1)).map (node :: ·) := by
  rw [siblingsFrom?]
  simp [hlt, hbit]

/-- What stands at a position says whether there is one more. -/
theorem siblingsFrom?_cases {nodes : List Nat} (h : l.siblingsFrom? position node = some nodes) :
    position < l.louds.size ∧ (l.louds.get? position = some false ∧ nodes = []
      ∨ l.louds.get? position = some true
        ∧ ∃ rest, nodes = node :: rest ∧ l.siblingsFrom? (position + 1) (node + 1) = some rest) := by
  by_cases hlt : position < l.louds.size
  · refine ⟨hlt, ?_⟩
    cases hbit : l.louds.get? position with
    | none =>
      rw [siblingsFrom?] at h
      simp [hlt, hbit] at h
    | some bit =>
      cases bit with
      | false =>
        rw [siblingsFrom?_stop hlt hbit] at h
        exact Or.inl ⟨rfl, (Option.some.inj h).symm⟩
      | true =>
        rw [siblingsFrom?_next hlt hbit] at h
        obtain ⟨rest, hrest, rfl⟩ := Option.map_eq_some_iff.mp h
        exact Or.inr ⟨rfl, rest, rfl, hrest⟩
  · rw [siblingsFrom?, if_neg hlt] at h
    cases h

/-! ## Down -/

/-- From the `j`-th child on there are those that are left. -/
theorem siblingsFrom?_spec (h : l.Lays reading s resolves) {u : Nat} (hu : u < s.nodes.length)
    (n : Nat) : ∀ {j : Nat}, j + n = s.degree u →
    l.siblingsFrom? (s.start u + j) (s.firstChild u + j)
      = some (List.range' (s.firstChild u + j) n) := by
  induction n with
  | zero =>
    intro j hj
    have hstop := Shape.loudsBits_stop hu
    rw [← hj, Nat.add_zero] at hstop
    obtain ⟨hlt, hbit⟩ := h.louds_bit hstop
    rw [siblingsFrom?_stop hlt hbit, List.range'_zero]
  | succ n ih =>
    intro j hj
    obtain ⟨hlt, hbit⟩ := h.louds_bit (Shape.loudsBits_child (show j < s.degree u by omega))
    have hnext := ih (j := j + 1) (by omega)
    rw [← Nat.add_assoc, ← Nat.add_assoc] at hnext
    rw [siblingsFrom?_next hlt hbit, hnext, Option.map_some, List.range'_succ]

/-- The children of a node are as many as it has edges, and the first is so many behind its zero as
there are zeros before. -/
theorem children?_eq (h : l.Lays reading s resolves) (htops : l.Tops s) {u : Nat}
    (hu : u < s.nodes.length) :
    l.children? u = some (List.range' (s.firstChild u) (s.degree u)) := by
  have hall := siblingsFrom?_spec h hu (s.degree u) (Nat.zero_add _)
  rw [Nat.add_zero, Nat.add_zero] at hall
  rw [children?, htops.select0? hu, Option.bind_eq_bind, Option.bind_some, Nat.add_sub_cancel]
  exact hall

/-! ## Up -/

/-- Every node but the root has the node above it for a parent, and this is a lesser one. -/
theorem Lays.exists_parent (h : l.Lays reading s resolves) {v : Nat} (hpos : 0 < v)
    (hv : v < l.numNodes) : ∃ u e, s.Enters u e v ∧ l.parent? v = some u ∧ u < v := by
  rw [h.numNodes_eq] at hv
  obtain ⟨u, e, he⟩ := h.sound.exists_enters hpos hv
  exact ⟨u, e, he, h.parent? he, h.sound.lt_of_enters he⟩

/-- A node that is there has a parent by an edge of the tree alone. -/
theorem Lays.parent?_eq_some_iff (h : l.Lays reading s resolves) {u v : Nat} (hpos : 0 < v)
    (hv : v < l.numNodes) : l.parent? v = some u ↔ ∃ e, s.Enters u e v := by
  obtain ⟨u', e, he, hparent, _⟩ := h.exists_parent hpos hv
  rw [hparent, Option.some.injEq]
  constructor
  · rintro rfl
    exact ⟨e, he⟩
  · rintro ⟨e', he'⟩
    exact (he.unique he').1

/-! ## By the bits -/

/-- The children by the bits are those that edges enter. -/
theorem childOf_ofShape_iff (hsound : s.Sound) (hsize : 2 * s.nodes.length + 2 < 2 ^ 32)
    {u v : Nat} :
    (ofShape reading s targets tail config).ChildOf u v ↔ ∃ e, s.Enters u e v := by
  rw [← Shape.length_loudsBits hsound] at hsize
  constructor
  · rintro ⟨p, hbit, hones, hzeros⟩
    change (BitVector.ofBits s.loudsBits _ _).get? p = _ at hbit
    change (BitVector.ofBits s.loudsBits _ _).rank1? p = _ at hones
    change (BitVector.ofBits s.loudsBits _ _).rank0? p = _ at hzeros
    rw [BitVector.get?_ofBits] at hbit
    have hp := Nat.le_of_lt (List.getElem?_eq_some_iff.mp hbit).1
    rw [BitVector.rank1?_ofBits hsize hp, Option.some.injEq] at hones
    rw [BitVector.rank0?_ofBits hsize hp, Option.some.injEq] at hzeros
    have hselect : SelectsAt true s.loudsBits v p := ⟨hbit, hones⟩
    have hv : v < s.nodes.length := by
      rw [← Shape.count_true_loudsBits hsound]
      exact hselect.lt_count
    have hpos : 0 < v := by
      by_contra hzero
      obtain rfl := Nat.eq_zero_of_not_pos hzero
      -- The first one stands before any zero: it is that of the root.
      have hfirst : SelectsAt true s.loudsBits 0 0 := ⟨rfl, countBefore_zero⟩
      rw [hselect.unique hfirst, countBefore_zero] at hzeros
      exact Nat.succ_ne_zero u hzeros.symm
    obtain ⟨u', e, he⟩ := hsound.exists_enters hpos hv
    have hplace := hselect.unique (Shape.selectsAt_one he)
    have hboth := countBefore_true_add_false hp
    obtain rfl : u' = u := by omega
    exact ⟨e, he⟩
  · rintro ⟨e, he⟩
    have hselect := Shape.selectsAt_one he
    have hp := Nat.le_of_lt hselect.lt_length
    have hboth := countBefore_true_add_false hp
    rw [hselect.count] at hboth
    refine ⟨v + u + 1, ?_, ?_, ?_⟩
    · exact (BitVector.get?_ofBits _).trans hselect.bit
    · exact (BitVector.rank1?_ofBits hsize hp).trans (congrArg some hselect.count)
    · exact (BitVector.rank0?_ofBits hsize hp).trans (congrArg some (by omega))

end Level

end Lexicon
