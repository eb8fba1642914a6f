/-
Lexicon.Proofs.Shape.Louds — reading the tree off the bits that spell it.

The bits of node `u` begin at `Shape.start`: a one for each child, then a zero
(`loudsBits_child`, `loudsBits_stop`). The zero before them is zero number `u` and the
one of node `v` is one number `v`, which is how a search finds the children of a node
(`selectsAt_zero`) and the node above it (`selectsAt_one`).
-/
import Lexicon.Proofs.Bits.Counting
import Lexicon.Proofs.Shape.Numbering

namespace Lexicon.Shape

/-- The bits of one node. -/
def rowOf (node : Node) : List Bool :=
  node.edges.map (fun _ => true) ++ [false]

/-- Where the bits of node `u` begin. -/
def start (s : Shape) (u : Nat) : Nat :=
  s.firstChild u + u + 1

theorem row_getElem?_of_lt {node : Node} {j : Nat} (h : j < node.edges.length) :
    (rowOf node)[j]? = some true := by
  rw [rowOf, List.getElem?_append_left (by rw [List.length_map]; exact h), List.getElem?_map,
    List.getElem?_eq_getElem h]
  rfl

theorem row_getElem?_length (node : Node) : (rowOf node)[node.edges.length]? = some false := by
  rw [rowOf, List.getElem?_append_right (by rw [List.length_map]), List.length_map, Nat.sub_self]
  rfl

/-- Up to its last bit a node has only ones. -/
theorem countBefore_row {node : Node} {j : Nat} (h : j ≤ node.edges.length) :
    countBefore true (rowOf node) j = j ∧ countBefore false (rowOf node) j = 0 := by
  have htake : (rowOf node).take j = List.replicate j true := by
    rw [rowOf, List.take_append_of_le_length (by rw [List.length_map]; exact h), ← List.map_take,
      List.map_const', List.length_take, Nat.min_eq_left h]
  rw [countBefore, countBefore, htake]
  simp [List.count_replicate]

theorem rows_counts (nodes : List Node) :
    (nodes.flatMap rowOf).length = degreesBefore nodes nodes.length + nodes.length
      ∧ (nodes.flatMap rowOf).count true = degreesBefore nodes nodes.length
      ∧ (nodes.flatMap rowOf).count false = nodes.length := by
  induction nodes with
  | nil => exact ⟨rfl, rfl, rfl⟩
  | cons node nodes ih =>
    obtain ⟨hlength, hones, hzeros⟩ := ih
    rw [List.flatMap_cons, List.length_append, List.count_append, List.count_append,
      List.length_cons, degreesBefore_cons, hlength, hones, hzeros, rowOf]
    simp [List.count_replicate]
    omega

variable {s : Shape}

/-- What stands before and behind the bits of a node. -/
theorem exists_split {u : Nat} {node : Node} (h : s.nodes[u]? = some node) :
    ∃ front back, s.loudsBits = front ++ (rowOf node ++ back)
      ∧ front.length = s.start u ∧ front.count true = s.firstChild u ∧ front.count false = u + 1 := by
  obtain ⟨hlt, hnode⟩ := List.getElem?_eq_some_iff.mp h
  have hnodes : s.nodes = s.nodes.take u ++ (node :: s.nodes.drop (u + 1)) := by
    rw [← hnode, List.getElem_cons_drop, List.take_append_drop]
  have hlength : (s.nodes.take u).length = u := List.length_take_of_le (Nat.le_of_lt hlt)
  have hdegrees : degreesBefore (s.nodes.take u) u = degreesBefore s.nodes u := by
    rw [degreesBefore, degreesBefore, List.take_take, Nat.min_self]
  obtain ⟨hsize, hones, hzeros⟩ := rows_counts (s.nodes.take u)
  rw [hlength, hdegrees] at hsize hones
  rw [hlength] at hzeros
  refine ⟨true :: false :: (s.nodes.take u).flatMap rowOf,
    (s.nodes.drop (u + 1)).flatMap rowOf ++ [false], ?_, ?_, ?_, ?_⟩
  · have hrows : s.nodes.flatMap rowOf = (s.nodes.take u).flatMap rowOf
        ++ (rowOf node ++ (s.nodes.drop (u + 1)).flatMap rowOf) := by
      rw [← List.flatMap_cons, ← List.flatMap_append, ← hnodes]
    rw [loudsBits]
    show true :: false :: (s.nodes.flatMap rowOf ++ [false]) = _
    rw [hrows]
    simp only [List.cons_append, List.append_assoc]
  · rw [List.length_cons, List.length_cons, hsize, start, firstChild]
    omega
  · rw [List.count_cons_self, List.count_cons_of_ne (by decide), hones, firstChild]
  · rw [List.count_cons_of_ne (by decide), List.count_cons_self, hzeros]

/-- Among the bits of a node: the bit there, and how many ones and zeros come before it. -/
theorem loudsBits_row {u j : Nat} {node : Node} (h : s.nodes[u]? = some node)
    (hj : j ≤ node.edges.length) :
    s.loudsBits[s.start u + j]? = (rowOf node)[j]?
      ∧ countBefore true s.loudsBits (s.start u + j) = s.firstChild u + j
      ∧ countBefore false s.loudsBits (s.start u + j) = u + 1 := by
  obtain ⟨front, back, hbits, hlength, hones, hzeros⟩ := exists_split h
  have hrow : (rowOf node).length = node.edges.length + 1 := by
    rw [rowOf, List.length_append, List.length_map, List.length_singleton]
  obtain ⟨htrue, hfalse⟩ := countBefore_row hj
  have hcount : ∀ kind, countBefore kind s.loudsBits (s.start u + j)
      = front.count kind + countBefore kind (rowOf node) j := by
    intro kind
    rw [hbits, ← hlength, countBefore_add, countBefore_append_length, List.drop_left,
      countBefore_append_of_le (by omega)]
  refine ⟨?_, ?_, ?_⟩
  · rw [hbits, List.getElem?_append_right (by omega), hlength, Nat.add_sub_cancel_left,
      List.getElem?_append_left (by omega)]
  · rw [hcount, htrue, hones]
  · rw [hcount, hfalse, hzeros]

theorem exists_node {u : Nat} (h : u < s.nodes.length) :
    ∃ node, s.nodes[u]? = some node ∧ s.degree u = node.edges.length :=
  ⟨s.nodes[u], List.getElem?_eq_getElem h, degree_eq (List.getElem?_eq_getElem h)⟩

theorem lt_length_of_degree {u j : Nat} (h : j < s.degree u) : u < s.nodes.length := by
  by_contra hu
  rw [degree, List.getElem?_eq_none (Nat.le_of_not_lt hu)] at h
  exact Nat.not_lt_zero j h

theorem loudsBits_child {u j : Nat} (h : j < s.degree u) :
    s.loudsBits[s.start u + j]? = some true := by
  obtain ⟨node, hnode, hdegree⟩ := exists_node (lt_length_of_degree h)
  rw [hdegree] at h
  rw [(loudsBits_row hnode (Nat.le_of_lt h)).1, row_getElem?_of_lt h]

theorem loudsBits_stop {u : Nat} (h : u < s.nodes.length) :
    s.loudsBits[s.start u + s.degree u]? = some false := by
  obtain ⟨node, hnode, hdegree⟩ := exists_node h
  rw [hdegree, (loudsBits_row hnode (Nat.le_refl _)).1, row_getElem?_length]

/-- The bits of the next node begin behind the zero of this one. -/
theorem start_succ {u : Nat} (h : u < s.nodes.length) :
    s.start (u + 1) = s.start u + s.degree u + 1 := by
  rw [start, start, firstChild_succ h]
  omega

/-- The zero right before the bits of node `u` is zero number `u`. -/
theorem selectsAt_zero {u : Nat} (h : u < s.nodes.length) :
    SelectsAt false s.loudsBits u (s.firstChild u + u) := by
  cases u with
  | zero => exact ⟨by rw [firstChild_zero]; rfl, by rw [firstChild_zero]; rfl⟩
  | succ u =>
    have hu : u < s.nodes.length := Nat.lt_of_succ_lt h
    obtain ⟨node, hnode, hdegree⟩ := exists_node hu
    have hplace : s.firstChild (u + 1) + (u + 1) = s.start u + s.degree u := by
      rw [start, firstChild_succ hu]
      omega
    refine ⟨?_, ?_⟩
    · rw [hplace, loudsBits_stop hu]
    · rw [hplace, hdegree]
      exact (loudsBits_row hnode (Nat.le_refl _)).2.2

/-- The one of node `v` is one number `v`, and `u` zeros and one more stand before it if `u` is the
node above. -/
theorem selectsAt_one {u v : Nat} {e : Edge} (h : s.Enters u e v) :
    SelectsAt true s.loudsBits v (v + u + 1) := by
  obtain ⟨node, j, hnode, hj, rfl⟩ := enters_iff.mp h
  have hlt := (List.getElem?_eq_some_iff.mp hj).1
  obtain ⟨hbit, hones, _⟩ := loudsBits_row hnode (Nat.le_of_lt hlt)
  have hplace : s.firstChild u + j + u + 1 = s.start u + j := by
    rw [start]
    omega
  refine ⟨?_, ?_⟩
  · rw [hplace, hbit, row_getElem?_of_lt hlt]
  · rw [hplace, hones]

/-- Every node takes a zero and every node but the root a one; four bits frame them. -/
theorem length_loudsBits (h : s.Sound) : s.loudsBits.length = 2 * s.nodes.length + 2 := by
  have hlength : s.loudsBits.length = (s.nodes.flatMap rowOf).length + 3 := by
    rw [loudsBits, List.length_cons, List.length_cons, List.length_append, List.length_singleton]
    rfl
  have hedges := congrArg List.length (map_edgesFrom s.nodes 0 (·.below))
  rw [List.length_map, ← pendings, length_pendings, ← edges] at hedges
  rw [hlength, (rows_counts s.nodes).1, ← hedges, h.length_nodes]
  omega

end Lexicon.Shape
