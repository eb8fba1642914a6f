/-
Lexicon.Proofs.Shape.Numbering — the numbers that nodes get layer by layer.

Node `i + 1` is the one that edge `i` enters, and the children of a node stand
together: the first of them is `Shape.firstChild`. `breadthFirst_eq_map` says that
the nodes are the first layer followed by what their own edges lead to, whatever
number of layers there are; `lt_of_breadthFirst` that a node comes before its
children; `edges_getElem?` where an edge stands. `Shape.Sound` collects what the
other modules use of a shape, and `ofStrings_sound` is where it comes from.
-/
import Lexicon.Proofs.Folds
import Lexicon.Proofs.Shape.Nodes
import Mathlib.Algebra.BigOperators.Group.List.Basic
import Mathlib.Algebra.Order.BigOperators.Group.List
import Mathlib.Algebra.Order.Ring.Nat

namespace Lexicon

/-! ## Layers -/

/-- What the edges of some nodes lead to, in order. -/
def pendings (nodes : List Node) : List (List Pending) :=
  nodes.flatMap fun n => n.edges.map (·.below)

/-- The number of edges of the first `u` nodes. -/
def degreesBefore (nodes : List Node) (u : Nat) : Nat :=
  ((nodes.take u).map (·.edges.length)).sum

variable {order : SiblingOrder}

theorem length_pendings (nodes : List Node) :
    (pendings nodes).length = degreesBefore nodes nodes.length := by
  rw [pendings, degreesBefore, List.length_flatMap, List.take_length]
  simp only [List.length_map]

theorem pendings_append (front back : List Node) :
    pendings (front ++ back) = pendings front ++ pendings back :=
  List.flatMap_append

@[simp] theorem degreesBefore_zero (nodes : List Node) : degreesBefore nodes 0 = 0 := by
  simp [degreesBefore]

theorem degreesBefore_succ {nodes : List Node} {u : Nat} {node : Node} (h : nodes[u]? = some node) :
    degreesBefore nodes (u + 1) = degreesBefore nodes u + node.edges.length := by
  rw [degreesBefore, List.take_add_one, h]
  simp [degreesBefore]

theorem degreesBefore_le (nodes : List Node) {u v : Nat} (h : u ≤ v) :
    degreesBefore nodes u ≤ degreesBefore nodes v := by
  obtain ⟨d, rfl⟩ := Nat.exists_eq_add_of_le h
  rw [degreesBefore, degreesBefore, List.take_add, List.map_append, List.sum_append]
  exact Nat.le_add_right _ _

theorem degreesBefore_append (front back : List Node) (u : Nat) :
    degreesBefore (front ++ back) (front.length + u)
      = degreesBefore front front.length + degreesBefore back u := by
  simp [degreesBefore, List.take_append, List.take_of_length_le]

/-- Deep enough for every layer: what is left of each string is shorter than the fuel. -/
def Deep (fuel : Nat) (layer : List (List Pending)) : Prop :=
  ∀ strings ∈ layer, 0 < fuel ∧ ∀ p ∈ strings, p.rest.length < fuel

/-- Every edge takes at least one byte, so the next layer needs less fuel. -/
theorem Deep.next (order : SiblingOrder) {fuel : Nat} {layer : List (List Pending)}
    (h : Deep (fuel + 1) layer) :
    Deep fuel (pendings (layer.map (Node.ofPending order))) := by
  have hshort : ∀ below ∈ pendings (layer.map (Node.ofPending order)),
      below ≠ [] ∧ ∀ p ∈ below, p.rest.length < fuel := by
    intro below hbelow
    obtain ⟨node, hnode, hmem⟩ := List.mem_flatMap.mp hbelow
    obtain ⟨strings, hstrings, rfl⟩ := List.mem_map.mp hnode
    obtain ⟨e, he, rfl⟩ := List.mem_map.mp hmem
    refine ⟨below_ne_nil_of_edge he, ?_⟩
    intro p hp
    obtain ⟨q, hq, hrest, _⟩ := exists_pending_of_edge he hp
    have hlength := (h strings hstrings).2 q hq
    have hlabel := List.length_pos_iff.mpr (label_ne_nil_of_edge he)
    rw [hrest, List.length_append] at hlength
    omega
  intro below hbelow
  obtain ⟨hne, hall⟩ := hshort below hbelow
  obtain ⟨p, hp⟩ := List.exists_mem_of_ne_nil below hne
  exact ⟨Nat.lt_of_le_of_lt (Nat.zero_le _) (hall p hp), hall⟩

theorem breadthFirst_nil : ∀ (fuel : Nat), breadthFirst order fuel [] = []
  | 0 => rfl
  | _ + 1 => rfl

/-- One layer in front of those below it. -/
theorem breadthFirst_succ (fuel : Nat) (layer : List (List Pending)) :
    breadthFirst order (fuel + 1) layer = layer.map (Node.ofPending order)
      ++ breadthFirst order fuel (pendings (layer.map (Node.ofPending order))) := by
  cases layer with
  | nil => exact (breadthFirst_nil fuel).symm
  | cons strings layer => rfl

/-- The nodes are those of the first layer and those that edges lead to. -/
theorem breadthFirst_eq_map : ∀ {fuel : Nat} {layer : List (List Pending)}, Deep fuel layer →
    breadthFirst order fuel layer
      = (layer ++ pendings (breadthFirst order fuel layer)).map (Node.ofPending order)
  | 0, [], _ => rfl
  | 0, strings :: _, h => absurd (h strings List.mem_cons_self).1 (Nat.lt_irrefl 0)
  | fuel + 1, layer, h => by
      have ih := breadthFirst_eq_map (Deep.next order h)
      rw [breadthFirst_succ, pendings_append, List.map_append, List.map_append]
      rw [List.map_append] at ih
      rw [← ih]

/-- A node stands before the nodes that its edges lead to: the edges of the nodes before it and the
first layer are more than these nodes. -/
theorem lt_of_breadthFirst : ∀ {fuel : Nat} {layer : List (List Pending)} {u : Nat},
    u < (breadthFirst order fuel layer).length →
    u < layer.length + degreesBefore (breadthFirst order fuel layer) u
  | 0, _, u, h => absurd h (Nat.not_lt_zero u)
  | fuel + 1, layer, u, h => by
      rw [breadthFirst_succ, List.length_append, List.length_map] at h
      by_cases hu : u < layer.length
      · exact Nat.lt_of_lt_of_le hu (Nat.le_add_right _ _)
      · obtain ⟨d, rfl⟩ := Nat.exists_eq_add_of_le (Nat.le_of_not_lt hu)
        have hd : d < (breadthFirst order fuel
            (pendings (layer.map (Node.ofPending order)))).length := by omega
        have ih := lt_of_breadthFirst hd
        have hsplit := degreesBefore_append (layer.map (Node.ofPending order))
          (breadthFirst order fuel (pendings (layer.map (Node.ofPending order)))) d
        rw [length_pendings] at ih
        rw [List.length_map] at hsplit ih
        rw [breadthFirst_succ, hsplit]
        omega

/-! ## Edges -/

theorem degreesBefore_cons (node : Node) (nodes : List Node) (u : Nat) :
    degreesBefore (node :: nodes) (u + 1) = node.edges.length + degreesBefore nodes u := by
  simp [degreesBefore]

/-- The edges of numbered nodes stand node by node. -/
theorem edgesFrom_getElem? : ∀ (nodes : List Node) (first i u : Nat) (e : Edge),
    ((nodes.zipIdx first).flatMap fun (node, number) => node.edges.map (number, ·))[i]? = some (u, e)
      ↔ ∃ d node j, u = first + d ∧ nodes[d]? = some node ∧ node.edges[j]? = some e
          ∧ i = degreesBefore nodes d + j
  | [], first, i, u, e => by simp
  | node :: nodes, first, i, u, e => by
      rw [List.zipIdx_cons, List.flatMap_cons]
      by_cases hi : i < node.edges.length
      · rw [List.getElem?_append_left (by rw [List.length_map]; exact hi), List.getElem?_map]
        constructor
        · intro h
          obtain ⟨e', he', heq⟩ := Option.map_eq_some_iff.mp h
          obtain ⟨hu, he⟩ := Prod.mk.inj heq
          refine ⟨0, node, i, hu.symm, rfl, he ▸ he', ?_⟩
          rw [degreesBefore_zero, Nat.zero_add]
        · rintro ⟨d, node', j, hu, hnode, hj, hij⟩
          cases d with
          | zero =>
            rw [degreesBefore_zero, Nat.zero_add] at hij
            obtain rfl : node = node' := by simpa using hnode
            rw [hij, hj, hu]
            rfl
          | succ d =>
            rw [degreesBefore_cons] at hij
            omega
      · have ih := edgesFrom_getElem? nodes (first + 1) (i - node.edges.length) u e
        have hi' := Nat.le_of_not_lt hi
        rw [List.getElem?_append_right (by rw [List.length_map]; exact hi'), List.length_map, ih]
        constructor
        · rintro ⟨d, node', j, hu, hnode, hj, hij⟩
          refine ⟨d + 1, node', j, by omega, hnode, hj, ?_⟩
          rw [degreesBefore_cons]
          omega
        · rintro ⟨d, node', j, hu, hnode, hj, hij⟩
          cases d with
          | zero =>
            obtain rfl : node = node' := by simpa using hnode
            have hlt := (List.getElem?_eq_some_iff.mp hj).1
            rw [degreesBefore_zero, Nat.zero_add] at hij
            omega
          | succ d =>
            rw [degreesBefore_cons] at hij
            exact ⟨d, node', j, by omega, hnode, hj, by omega⟩

theorem map_edgesFrom {α : Type} (nodes : List Node) (first : Nat) (f : Edge → α) :
    ((nodes.zipIdx first).flatMap fun (node, number) => node.edges.map (number, ·)).map
        (fun x => f x.2)
      = nodes.flatMap fun node => node.edges.map f := by
  induction nodes generalizing first with
  | nil => rfl
  | cons node nodes ih =>
    rw [List.zipIdx_cons, List.flatMap_cons, List.flatMap_cons, List.map_append, ih (first + 1),
      List.map_map]
    rfl

namespace Shape

/-- The number of the first child of node `u`, or of the node that would be. -/
def firstChild (s : Shape) (u : Nat) : Nat :=
  degreesBefore s.nodes u + 1

/-- The number of children of node `u`. -/
def degree (s : Shape) (u : Nat) : Nat :=
  ((s.nodes[u]?).map (·.edges.length)).getD 0

/-- Edge `e` leads from node `u` to node `v`. -/
def Enters (s : Shape) (u : Nat) (e : Edge) (v : Nat) : Prop :=
  ∃ i, v = i + 1 ∧ s.edges[i]? = some (u, e)

variable {s : Shape}

theorem degree_eq {u : Nat} {node : Node} (h : s.nodes[u]? = some node) :
    s.degree u = node.edges.length := by
  rw [degree, h]
  rfl

@[simp] theorem firstChild_zero : s.firstChild 0 = 1 := by
  rw [firstChild, degreesBefore_zero]

theorem firstChild_succ {u : Nat} (h : u < s.nodes.length) :
    s.firstChild (u + 1) = s.firstChild u + s.degree u := by
  have hnode := List.getElem?_eq_getElem h
  rw [firstChild, firstChild, degreesBefore_succ hnode, degree_eq hnode]
  omega

theorem firstChild_le {u v : Nat} (h : u ≤ v) : s.firstChild u ≤ s.firstChild v :=
  Nat.succ_le_succ (degreesBefore_le s.nodes h)

/-- The edges of a node enter its children, which stand together. -/
theorem enters_iff {u v : Nat} {e : Edge} :
    s.Enters u e v ↔ ∃ node j, s.nodes[u]? = some node ∧ node.edges[j]? = some e
      ∧ v = s.firstChild u + j := by
  constructor
  · rintro ⟨i, rfl, h⟩
    obtain ⟨d, node, j, rfl, hnode, hj, rfl⟩ := (edgesFrom_getElem? s.nodes 0 i u e).mp h
    rw [Nat.zero_add]
    refine ⟨node, j, hnode, hj, ?_⟩
    rw [firstChild]
    omega
  · rintro ⟨node, j, hnode, hj, rfl⟩
    refine ⟨degreesBefore s.nodes u + j, by rw [firstChild]; omega, ?_⟩
    exact (edgesFrom_getElem? s.nodes 0 _ u e).mpr ⟨u, node, j, by omega, hnode, hj, rfl⟩

/-- Among the edges of its node an edge stands where the number of its child says. -/
theorem Enters.exists_edge {u v : Nat} {e : Edge} {node : Node} (h : s.Enters u e v)
    (hnode : s.nodes[u]? = some node) :
    ∃ j, node.edges[j]? = some e ∧ v = s.firstChild u + j := by
  obtain ⟨node', j, hnode', hj, hv⟩ := enters_iff.mp h
  rw [hnode] at hnode'
  obtain rfl := Option.some.inj hnode'
  exact ⟨j, hj, hv⟩

theorem Enters.exists_offset {u v : Nat} {e : Edge} (h : s.Enters u e v) :
    ∃ j, j < s.degree u ∧ v = s.firstChild u + j := by
  obtain ⟨node, j, hnode, hj, hv⟩ := enters_iff.mp h
  rw [degree_eq hnode]
  exact ⟨j, (List.getElem?_eq_some_iff.mp hj).1, hv⟩

theorem exists_child {u j : Nat} (h : j < s.degree u) : ∃ e, s.Enters u e (s.firstChild u + j) := by
  unfold degree at h
  cases hnode : s.nodes[u]? with
  | none => simp [hnode] at h
  | some node =>
    have hj : j < node.edges.length := by simpa [hnode] using h
    exact ⟨node.edges[j], enters_iff.mpr ⟨node, j, hnode, List.getElem?_eq_getElem hj, rfl⟩⟩

theorem Enters.pos {u v : Nat} {e : Edge} (h : s.Enters u e v) : 0 < v := by
  obtain ⟨i, rfl, _⟩ := h
  exact Nat.succ_pos i

theorem Enters.unique {u u' v : Nat} {e e' : Edge} (h : s.Enters u e v) (h' : s.Enters u' e' v) :
    u = u' ∧ e = e' := by
  obtain ⟨i, rfl, hi⟩ := h
  obtain ⟨i', heq, hi'⟩ := h'
  obtain rfl : i = i' := by omega
  rw [hi] at hi'
  exact Prod.mk.inj (Option.some.inj hi')

/-- What the other modules use of a numbered tree. -/
structure Sound (s : Shape) : Prop where
  length_nodes : s.nodes.length = s.edges.length + 1
  lt_of_enters : ∀ {u v : Nat} {e : Edge}, s.Enters u e v → u < v
  label_ne_nil : ∀ {u v : Nat} {e : Edge}, s.Enters u e v → e.label ≠ []
  /-- No two edges of a node start with one byte. -/
  apart : ∀ {u v v' : Nat} {e e' : Edge}, s.Enters u e v → s.Enters u e' v' →
    e.label.head? = e'.label.head? → v = v'

theorem Sound.length_pos (h : s.Sound) : 0 < s.nodes.length := by
  rw [h.length_nodes]
  exact Nat.succ_pos _

theorem Sound.lt_length (h : s.Sound) {u v : Nat} {e : Edge} (he : s.Enters u e v) :
    v < s.nodes.length := by
  obtain ⟨i, rfl, hi⟩ := he
  have hlt := (List.getElem?_eq_some_iff.mp hi).1
  rw [h.length_nodes]
  omega

/-- Every node but the root is entered. -/
theorem Sound.exists_enters (h : s.Sound) {v : Nat} (hpos : 0 < v) (hv : v < s.nodes.length) :
    ∃ u e, s.Enters u e v := by
  rw [h.length_nodes] at hv
  have hi := List.getElem?_eq_getElem (show v - 1 < s.edges.length by omega)
  exact ⟨s.edges[v - 1].1, s.edges[v - 1].2, v - 1, by omega, hi⟩

/-! ## The tree of a list of strings -/

/-- The strings at the root. -/
def pendingOf (reading : Reading) (strings : List (List UInt8 × Weight)) : List Pending :=
  strings.zipIdx.map fun ((string, weight), index) => ⟨reading.read string, weight, index⟩

/-- The strings at the root, in order. -/
def sortedOf (reading : Reading) (strings : List (List UInt8 × Weight)) : List Pending :=
  Sorting.sortStrings (·.rest) (pendingOf reading strings)

variable {reading : Reading} {strings : List (List UInt8 × Weight)}

theorem sortedOf_perm (reading : Reading) (strings : List (List UInt8 × Weight)) :
    (sortedOf reading strings).Perm (pendingOf reading strings) :=
  Sorting.sortStrings_perm _ _

theorem ordered_sortedOf (reading : Reading) (strings : List (List UInt8 × Weight)) :
    Ordered (sortedOf reading strings) :=
  Sorting.sortStrings_sorted _ _

theorem mem_pendingOf {p : Pending} : p ∈ pendingOf reading strings ↔
    ∃ string, strings[p.index]? = some (string, p.weight) ∧ p.rest = reading.read string := by
  rw [pendingOf, List.mem_map]
  constructor
  · rintro ⟨⟨⟨string, weight⟩, index⟩, hmem, rfl⟩
    exact ⟨string, List.mem_zipIdx_iff_getElem?.mp hmem, rfl⟩
  · rintro ⟨string, hget, hrest⟩
    cases p with
    | mk rest weight index =>
      obtain rfl : rest = reading.read string := hrest
      exact ⟨((string, weight), index), List.mem_zipIdx_iff_getElem?.mpr hget, rfl⟩

/-- The fuel of the tree is more than its strings need. -/
theorem exists_deep (order : SiblingOrder) (reading : Reading)
    (strings : List (List UInt8 × Weight)) :
    ∃ fuel, Deep fuel [sortedOf reading strings]
      ∧ (ofStrings order reading strings).nodes
        = breadthFirst order fuel [sortedOf reading strings] := by
  refine ⟨_, ?_, rfl⟩
  intro ps hps
  rw [List.mem_singleton] at hps
  subst hps
  refine ⟨Nat.succ_pos _, ?_⟩
  intro p hp
  exact Nat.lt_succ_of_le ((le_foldl_max (fun p : Pending => p.rest.length) _ 0).2 p hp)

/-- The root is made from all strings, every other node from what its edge leads to. -/
theorem nodes_ofStrings : (ofStrings order reading strings).nodes
    = (sortedOf reading strings :: pendings (ofStrings order reading strings).nodes).map
        (Node.ofPending order) := by
  obtain ⟨fuel, hdeep, hnodes⟩ := exists_deep order reading strings
  rw [hnodes]
  exact breadthFirst_eq_map hdeep

theorem map_below_edges (s : Shape) : s.edges.map (·.2.below) = pendings s.nodes :=
  map_edgesFrom s.nodes 0 (·.below)

theorem root_ofStrings : (ofStrings order reading strings).nodes[0]?
    = some (Node.ofPending order (sortedOf reading strings)) := by
  rw [nodes_ofStrings]
  rfl

theorem node_of_enters {u v : Nat} {e : Edge}
    (h : (ofStrings order reading strings).Enters u e v) :
    (ofStrings order reading strings).nodes[v]? = some (Node.ofPending order e.below) := by
  obtain ⟨i, rfl, hi⟩ := h
  rw [nodes_ofStrings, List.getElem?_map, List.getElem?_cons_succ, ← map_below_edges,
    List.getElem?_map, hi]
  rfl

theorem length_nodes_ofStrings : (ofStrings order reading strings).nodes.length
    = (ofStrings order reading strings).edges.length + 1 := by
  have h := congrArg List.length (map_below_edges (ofStrings order reading strings))
  rw [List.length_map] at h
  rw [h]
  exact (congrArg List.length nodes_ofStrings).trans (by rw [List.length_map, List.length_cons])

theorem lt_of_enters_ofStrings {u v : Nat} {e : Edge}
    (h : (ofStrings order reading strings).Enters u e v) : u < v := by
  obtain ⟨node, j, hnode, hj, rfl⟩ := enters_iff.mp h
  have hlt := (List.getElem?_eq_some_iff.mp hnode).1
  obtain ⟨fuel, _, hnodes⟩ := exists_deep order reading strings
  rw [hnodes] at hlt
  have hbefore := lt_of_breadthFirst hlt
  rw [List.length_singleton, ← hnodes] at hbefore
  rw [firstChild]
  omega

/-- Every node is made from strings in order. -/
theorem exists_ordered : ∀ {v : Nat}, v < (ofStrings order reading strings).nodes.length →
    ∃ ps, Ordered ps
      ∧ (ofStrings order reading strings).nodes[v]? = some (Node.ofPending order ps) := by
  intro v
  induction v using Nat.strong_induction_on with
  | _ v ih =>
    intro hv
    cases v with
    | zero => exact ⟨_, ordered_sortedOf _ _, root_ofStrings⟩
    | succ i =>
      rw [length_nodes_ofStrings] at hv
      have hi := List.getElem?_eq_getElem (Nat.lt_of_succ_lt_succ hv)
      have he : (ofStrings order reading strings).Enters _ _ (i + 1) := ⟨i, rfl, hi⟩
      obtain ⟨node, j, hnode, hj, _⟩ := enters_iff.mp he
      have hu := lt_of_enters_ofStrings he
      obtain ⟨ps, hps, hmade⟩ := ih _ hu (List.getElem?_eq_some_iff.mp hnode).1
      rw [hnode] at hmade
      obtain rfl := Option.some.inj hmade
      exact ⟨_, ordered_below hps (List.mem_of_getElem? hj), node_of_enters he⟩

/-- An edge is one of those of a node that is made from strings in order. -/
theorem exists_ordered_of_enters {u v : Nat} {e : Edge}
    (h : (ofStrings order reading strings).Enters u e v) :
    ∃ ps, Ordered ps
      ∧ (ofStrings order reading strings).nodes[u]? = some (Node.ofPending order ps)
      ∧ e ∈ (Node.ofPending order ps).edges := by
  obtain ⟨node, j, hnode, hj, _⟩ := enters_iff.mp h
  obtain ⟨ps, hps, hmade⟩ := exists_ordered (List.getElem?_eq_some_iff.mp hnode).1
  rw [hnode] at hmade
  obtain rfl := Option.some.inj hmade
  exact ⟨ps, hps, hnode, List.mem_of_getElem? hj⟩

theorem ofStrings_sound (order : SiblingOrder) (reading : Reading)
    (strings : List (List UInt8 × Weight)) : (ofStrings order reading strings).Sound where
  length_nodes := length_nodes_ofStrings
  lt_of_enters := lt_of_enters_ofStrings
  label_ne_nil := by
    intro u v e h
    obtain ⟨ps, _, _, he⟩ := exists_ordered_of_enters h
    exact label_ne_nil_of_edge he
  apart := by
    intro u v v' e e' h h' hhead
    obtain ⟨node, j, hnode, hj, rfl⟩ := enters_iff.mp h
    obtain ⟨j', hj', rfl⟩ := h'.exists_edge hnode
    obtain ⟨ps, hps, hmade⟩ := exists_ordered (List.getElem?_eq_some_iff.mp hnode).1
    rw [hnode] at hmade
    obtain rfl := Option.some.inj hmade
    rw [edge_unique hps hj hj' hhead]

/-! ## Sizes -/

@[simp] theorem length_read (reading : Reading) (string : List UInt8) :
    (reading.read string).length = string.length := by
  cases reading with
  | forward => rfl
  | backward => exact List.length_reverse

theorem read_injective : ∀ reading : Reading, Function.Injective reading.read
  | .forward => Function.injective_id
  | .backward => List.reverse_injective

theorem tallyLeft_sortedOf (f : Weight → Nat) (reading : Reading)
    (strings : List (List UInt8 × Weight)) :
    tallyLeft f (sortedOf reading strings) = (strings.map fun x => f x.2 * x.1.length).sum := by
  have hperm := ((sortedOf_perm reading strings).map fun p => f p.weight * p.rest.length).sum_nat
  rw [tallyLeft, hperm, pendingOf, List.map_map]
  have hlength : ∀ x : (List UInt8 × Weight) × Nat,
      f x.1.2 * (reading.read x.1.1).length = f x.1.2 * x.1.1.length :=
    fun x => congrArg _ (length_read reading x.1.1)
  calc ((strings.zipIdx.map fun x => f x.1.2 * (reading.read x.1.1).length) : List Nat).sum
      = ((strings.zipIdx.map Prod.fst).map fun x => f x.2 * x.1.length).sum := by
        rw [List.map_map]
        simp only [hlength]
        rfl
    _ = (strings.map fun x => f x.2 * x.1.length).sum := by rw [List.zipIdx_map_fst]

theorem tallyLeft_nodes (f : Weight → Nat) (order : SiblingOrder) (layer : List (List Pending)) :
    ((layer.map (Node.ofPending order)).flatMap fun n =>
        n.edges.map fun e => tally f e.below * e.label.length + tallyLeft f e.below).sum
      = (layer.map (tallyLeft f)).sum := by
  induction layer with
  | nil => rfl
  | cons ps layer ih =>
    rw [List.map_cons, List.flatMap_cons, List.sum_append, List.map_cons, List.sum_cons,
      tallyLeft_edges, ih]

/-- The labels of all edges, each for all strings that take it, are the bytes of the strings. -/
theorem sum_tally_labels (f : Weight → Nat) (order : SiblingOrder) (reading : Reading)
    (strings : List (List UInt8 × Weight)) :
    ((ofStrings order reading strings).edges.map fun x => tally f x.2.below * x.2.label.length).sum
      = (strings.map fun x => f x.2 * x.1.length).sum := by
  have hboth := map_edgesFrom (ofStrings order reading strings).nodes 0
    fun e => tally f e.below * e.label.length + tallyLeft f e.below
  have hall := tallyLeft_nodes f order
    (sortedOf reading strings :: pendings (ofStrings order reading strings).nodes)
  rw [← nodes_ofStrings, ← hboth, List.map_cons, List.sum_cons, ← map_below_edges,
    tallyLeft_sortedOf, List.map_map] at hall
  rw [← edges] at hall
  have hsum : ∀ edges : List (Nat × Edge),
      (edges.map fun x => tally f x.2.below * x.2.label.length + tallyLeft f x.2.below).sum
        = (edges.map fun x => tally f x.2.below * x.2.label.length).sum
          + (edges.map (tallyLeft f ∘ (·.2.below))).sum := by
    intro edges
    exact List.sum_map_add
  rw [hsum] at hall
  omega

/-- The labels of all edges are made from the bytes of the strings. -/
theorem sum_labels_le (order : SiblingOrder) (reading : Reading)
    (strings : List (List UInt8 × Weight)) :
    ((ofStrings order reading strings).edges.map (·.2.label.length)).sum
      ≤ (strings.map (·.1.length)).sum := by
  have hall := sum_tally_labels (fun _ => 1) order reading strings
  simp only [Nat.one_mul] at hall
  rw [← hall]
  refine List.sum_le_sum fun x hx => ?_
  obtain ⟨i, hi⟩ := List.mem_iff_getElem?.mp hx
  have he : (ofStrings order reading strings).Enters x.1 x.2 (i + 1) := ⟨i, rfl, hi⟩
  obtain ⟨ps, _, _, hedge⟩ := exists_ordered_of_enters he
  have hbelow : 0 < tally (fun _ => 1) x.2.below := by
    rw [tally, List.map_const', List.sum_replicate_nat, Nat.mul_one]
    exact List.length_pos_iff.mpr (below_ne_nil_of_edge hedge)
  exact Nat.le_mul_of_pos_left _ hbelow

/-- Every edge takes at least one byte of the strings. -/
theorem length_edges_le (order : SiblingOrder) (reading : Reading)
    (strings : List (List UInt8 × Weight)) :
    (ofStrings order reading strings).edges.length ≤ (strings.map (·.1.length)).sum := by
  refine Nat.le_trans ?_ (sum_labels_le order reading strings)
  have hpos : ∀ x ∈ (ofStrings order reading strings).edges, 1 ≤ x.2.label.length := by
    intro x hx
    obtain ⟨i, hi⟩ := List.mem_iff_getElem?.mp hx
    exact List.length_pos_iff.mpr ((ofStrings_sound order reading strings).label_ne_nil ⟨i, rfl, hi⟩)
  have hlength := List.length_le_sum_of_one_le
    ((ofStrings order reading strings).edges.map (·.2.label.length)) (by
      intro n hn
      obtain ⟨x, hx, rfl⟩ := List.mem_map.mp hn
      exact hpos x hx)
  rwa [List.length_map] at hlength

end Shape

end Lexicon
