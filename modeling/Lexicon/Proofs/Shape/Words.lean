/-
Lexicon.Proofs.Shape.Words — what the nodes of a tree stand for.

`Shape.Spells` relates a node to the bytes that lead to it from the root. Every node
spells one word (`Sound.exists_spells`, `Spells.unique`) and no two nodes spell the same
one (`Sound.eq_of_spells`). A node is above another exactly if its word is a front of
the other's (`Sound.above_of_append`), so a walk along a word has one way to go
(`Sound.exists_next`). A string ends at the node that spells it, and only there
(`mem_ended_iff`, `ends_getElem?`).
-/
import Lexicon.Proofs.Folds
import Lexicon.Proofs.Shape.Numbering
import Mathlib.Logic.Relation

namespace Lexicon.Shape

/-! ## Words -/

/-- The bytes that lead from the root to a node. -/
inductive Spells (s : Shape) : Nat → List UInt8 → Prop
  | root : Spells s 0 []
  | down {u v : Nat} {w : List UInt8} {e : Edge} :
    Spells s u w → s.Enters u e v → Spells s v (w ++ e.label)

/-- One node is above another, or the same. -/
def Above (s : Shape) : Nat → Nat → Prop :=
  Relation.ReflTransGen fun u v => ∃ e, s.Enters u e v

variable {s : Shape}

theorem Sound.lt_length_of_spells (h : s.Sound) {v : Nat} {w : List UInt8} (hv : s.Spells v w) :
    v < s.nodes.length := by
  cases hv with
  | root => exact h.length_pos
  | down _ he => exact h.lt_length he

theorem Spells.unique {v : Nat} {w w' : List UInt8} (h : s.Spells v w) (h' : s.Spells v w') :
    w = w' := by
  induction h generalizing w' with
  | root =>
    cases h' with
    | root => rfl
    | down _ he => exact absurd he.pos (Nat.lt_irrefl 0)
  | down _ he ih =>
    cases h' with
    | root => exact absurd he.pos (Nat.lt_irrefl 0)
    | down hu he' =>
      obtain ⟨rfl, rfl⟩ := he.unique he'
      rw [ih hu]

theorem Sound.exists_spells (h : s.Sound) {v : Nat} (hv : v < s.nodes.length) :
    ∃ w, s.Spells v w := by
  induction v using Nat.strong_induction_on with
  | _ v ih =>
    cases v with
    | zero => exact ⟨[], .root⟩
    | succ i =>
      obtain ⟨u, e, he⟩ := h.exists_enters (Nat.succ_pos i) hv
      have hu := h.lt_of_enters he
      obtain ⟨w, hw⟩ := ih u hu (Nat.lt_trans hu hv)
      exact ⟨w ++ e.label, hw.down he⟩

/-! ## Nodes above one another -/

theorem Sound.le_of_above (h : s.Sound) {u v : Nat} (huv : s.Above u v) : u ≤ v := by
  induction huv with
  | refl => exact Nat.le_refl u
  | tail _ hstep ih =>
    obtain ⟨e, he⟩ := hstep
    exact Nat.le_of_lt (Nat.lt_of_le_of_lt ih (h.lt_of_enters he))

theorem Enters.above {u v : Nat} {e : Edge} (h : s.Enters u e v) : s.Above u v :=
  Relation.ReflTransGen.single ⟨e, h⟩

/-- Going down, words only grow. -/
theorem Spells.exists_append {u v : Nat} {w : List UInt8} (hu : s.Spells u w) (huv : s.Above u v) :
    ∃ more, s.Spells v (w ++ more) := by
  induction huv with
  | refl => exact ⟨[], by rwa [List.append_nil]⟩
  | tail _ hstep ih =>
    obtain ⟨more, hmore⟩ := ih
    obtain ⟨e, he⟩ := hstep
    exact ⟨more ++ e.label, by rw [← List.append_assoc]; exact hmore.down he⟩

theorem root_above {v : Nat} {w : List UInt8} (h : s.Spells v w) : s.Above 0 v := by
  induction h with
  | root => exact Relation.ReflTransGen.refl
  | down _ he ih => exact ih.tail ⟨_, he⟩

/-- Two labels of a node that are fronts of one string are the same label. -/
theorem Sound.eq_of_append (h : s.Sound) {u v v' : Nat} {e e' : Edge} {more more' : List UInt8}
    (he : s.Enters u e v) (he' : s.Enters u e' v') (heq : e.label ++ more = e'.label ++ more') :
    v = v' := by
  apply h.apart he he'
  have hhead := congrArg List.head? heq
  rwa [List.head?_append_of_ne_nil _ (h.label_ne_nil he),
    List.head?_append_of_ne_nil _ (h.label_ne_nil he')] at hhead

/-- A node whose word is a front of another's is above it: from a node on the way there is one edge
that fits, the first one of the longer word. -/
theorem Sound.above_of_append (h : s.Sound) {u x : Nat} {w more : List UInt8} (hu : s.Spells u w)
    (hx : s.Spells x (w ++ more)) : s.Above u x := by
  induction hu generalizing more with
  | root => exact root_above hx
  | @down u v w e hu he ih =>
    rw [List.append_assoc] at hx
    have hux := ih hx
    rcases Relation.ReflTransGen.cases_head hux with rfl | ⟨v', ⟨e', he'⟩, hbelow⟩
    · have heq := hx.unique hu
      have hnil := List.append_right_eq_self.mp heq
      exact absurd (List.append_eq_nil_iff.mp hnil).1 (h.label_ne_nil he)
    · obtain ⟨more', hx'⟩ := (hu.down he').exists_append hbelow
      have heq := hx.unique hx'
      rw [List.append_assoc] at heq
      rwa [h.eq_of_append he he' (List.append_cancel_left heq)]

/-- No two nodes spell the same word. -/
theorem Sound.eq_of_spells (h : s.Sound) {u v : Nat} {w : List UInt8} (hu : s.Spells u w)
    (hv : s.Spells v w) : u = v := by
  have huv := h.above_of_append hu (by rwa [List.append_nil] : s.Spells v (w ++ []))
  have hvu := h.above_of_append hv (by rwa [List.append_nil] : s.Spells u (w ++ []))
  exact Nat.le_antisymm (h.le_of_above huv) (h.le_of_above hvu)

/-- Towards a longer word a node is left by an edge whose label is the next part of it. -/
theorem Sound.exists_next (h : s.Sound) {u x : Nat} {w more : List UInt8} (hu : s.Spells u w)
    (hx : s.Spells x (w ++ more)) (hne : more ≠ []) :
    ∃ e v rest, s.Enters u e v ∧ s.Above v x ∧ more = e.label ++ rest := by
  rcases Relation.ReflTransGen.cases_head (h.above_of_append hu hx) with rfl | ⟨v, ⟨e, he⟩, hvx⟩
  · exact absurd (List.append_right_eq_self.mp (hx.unique hu)) hne
  · obtain ⟨rest, hrest⟩ := (hu.down he).exists_append hvx
    have heq := hx.unique hrest
    rw [List.append_assoc] at heq
    exact ⟨e, v, rest, he, hvx, List.append_cancel_left heq⟩

/-- The way on to a word goes by the edge that starts with the word's next byte. -/
theorem Sound.next_eq (h : s.Sound) {u v x : Nat} {e : Edge} {w query : List UInt8}
    (hu : s.Spells u w) (he : s.Enters u e v) (hquery : query ≠ [])
    (hhead : e.label.head? = query.head?) (hx : s.Spells x (w ++ query)) :
    s.Above v x ∧ e.label <+: query := by
  obtain ⟨e', v', rest, he', hvx, hsplit⟩ := h.exists_next hu hx hquery
  have hhead' : e.label.head? = e'.label.head? := by
    rw [hhead, hsplit, List.head?_append_of_ne_nil _ (h.label_ne_nil he')]
  obtain rfl := h.apart he he' hhead'
  obtain ⟨_, rfl⟩ := he.unique he'
  exact ⟨hvx, rest, hsplit.symm⟩

/-- A query that ends inside a label has no node for any front of it. -/
theorem Sound.not_spells_inside (h : s.Sound) {u v : Nat} {e : Edge} {w query more p : List UInt8}
    (hu : s.Spells u w) (he : s.Enters u e v) (hmore : more ≠ []) (hlabel : e.label = query ++ more)
    (hp : p <+: query) (hne : p ≠ []) (x : Nat) : ¬s.Spells x (w ++ p) := by
  intro hx
  obtain ⟨rest, rfl⟩ := hp
  have hhead : e.label.head? = p.head? := by
    rw [hlabel, List.append_assoc, List.head?_append_of_ne_nil _ hne]
  have hlength := (h.next_eq hu he hne hhead hx).2.length_le
  have hpos := List.length_pos_iff.mpr hmore
  simp only [hlabel, List.length_append] at hlength
  omega

/-! ## Where strings end -/

variable {order : SiblingOrder} {reading : Reading} {strings : List (List UInt8 × Weight)}

/-- A node is made from strings that start with its word. -/
theorem exists_pending_of_spells {v : Nat} {w : List UInt8}
    (h : (ofStrings order reading strings).Spells v w) :
    ∃ ps, (ofStrings order reading strings).nodes[v]? = some (Node.ofPending order ps)
      ∧ ∀ p ∈ ps, ∃ string weight, strings[p.index]? = some (string, weight)
          ∧ reading.read string = w ++ p.rest := by
  induction h with
  | root =>
    refine ⟨_, root_ofStrings, ?_⟩
    intro p hp
    obtain ⟨string, hget, hrest⟩ := mem_pendingOf.mp ((sortedOf_perm reading strings).mem_iff.mp hp)
    exact ⟨string, p.weight, hget, hrest.symm⟩
  | @down u v w e _ he ih =>
    obtain ⟨ps, hnode, hps⟩ := ih
    refine ⟨e.below, node_of_enters he, ?_⟩
    intro p hp
    obtain ⟨j, hj, _⟩ := he.exists_edge hnode
    obtain ⟨q, hq, hrest, hindex⟩ := exists_pending_of_edge (List.mem_of_getElem? hj) hp
    obtain ⟨string, weight, hget, hword⟩ := hps q hq
    refine ⟨string, weight, by rw [← hindex]; exact hget, ?_⟩
    rw [hword, hrest, List.append_assoc]

theorem mem_ended_ofPending {i : Nat} {ps : List Pending} :
    i ∈ (Node.ofPending order ps).ended ↔ ∃ p ∈ ps, p.rest = [] ∧ p.index = i := by
  simp [Node.ofPending, and_assoc]

/-- A string that reaches a node ends there or below. -/
theorem exists_end {v : Nat} {w : List UInt8} {ps : List Pending} {p : Pending}
    (hv : (ofStrings order reading strings).Spells v w)
    (hnode : (ofStrings order reading strings).nodes[v]? = some (Node.ofPending order ps))
    (hp : p ∈ ps) :
    ∃ x node, (ofStrings order reading strings).Spells x (w ++ p.rest)
      ∧ (ofStrings order reading strings).nodes[x]? = some node ∧ p.index ∈ node.ended := by
  by_cases hrest : p.rest = []
  · refine ⟨v, _, ?_, hnode, mem_ended_ofPending.mpr ⟨p, hp, hrest, rfl⟩⟩
    rwa [hrest, List.append_nil]
  · obtain ⟨e, he, q, hq, hsplit, hindex⟩ := exists_edge_of_pending order hp hrest
    obtain ⟨j, hj⟩ := List.mem_iff_getElem?.mp he
    have henters := enters_iff.mpr ⟨_, j, hnode, hj, rfl⟩
    have hlabel := List.length_pos_iff.mpr (label_ne_nil_of_edge he)
    have hshorter : q.rest.length < p.rest.length := by
      rw [hsplit, List.length_append]
      omega
    obtain ⟨x, node, hx, hnode', hended⟩ := exists_end (hv.down henters) (node_of_enters henters) hq
    refine ⟨x, node, ?_, hnode', by rw [hindex]; exact hended⟩
    rw [hsplit, ← List.append_assoc]
    exact hx
termination_by p.rest.length

theorem exists_spells_of_string (order : SiblingOrder) (reading : Reading) {i : Nat}
    {string : List UInt8} {weight : Weight}
    (h : strings[i]? = some (string, weight)) :
    ∃ x node, (ofStrings order reading strings).Spells x (reading.read string)
      ∧ (ofStrings order reading strings).nodes[x]? = some node ∧ i ∈ node.ended := by
  have hp : (⟨reading.read string, weight, i⟩ : Pending) ∈ sortedOf reading strings :=
    (sortedOf_perm reading strings).mem_iff.mpr (mem_pendingOf.mpr ⟨string, h, rfl⟩)
  exact exists_end .root root_ofStrings hp

/-- The strings that end at a node are those that it spells. -/
theorem mem_ended_iff {v i : Nat} {w : List UInt8} {node : Node}
    (hv : (ofStrings order reading strings).Spells v w)
    (hnode : (ofStrings order reading strings).nodes[v]? = some node) :
    i ∈ node.ended ↔
      ∃ string weight, strings[i]? = some (string, weight) ∧ reading.read string = w := by
  constructor
  · intro hi
    obtain ⟨ps, hmade, hps⟩ := exists_pending_of_spells hv
    rw [hnode] at hmade
    obtain rfl := Option.some.inj hmade
    obtain ⟨p, hp, hrest, rfl⟩ := mem_ended_ofPending.mp hi
    obtain ⟨string, weight, hget, hword⟩ := hps p hp
    rw [hrest, List.append_nil] at hword
    exact ⟨string, weight, hget, hword⟩
  · rintro ⟨string, weight, hget, rfl⟩
    obtain ⟨x, node', hx, hnode', hi⟩ := exists_spells_of_string order reading hget
    obtain rfl := (ofStrings_sound order reading strings).eq_of_spells hx hv
    rw [hnode] at hnode'
    rwa [Option.some.inj hnode']

@[simp] theorem length_ends (s : Shape) : s.ends.length = s.strings := by
  rw [ends, Array.length_toList, size_foldl_set, Array.size_replicate]

/-- For every string the list of ends names the node that spells it. -/
theorem ends_getElem? (order : SiblingOrder) (reading : Reading) {i : Nat} {string : List UInt8}
    {weight : Weight} (h : strings[i]? = some (string, weight)) :
    ∃ v, (ofStrings order reading strings).ends[i]? = some v
      ∧ (ofStrings order reading strings).Spells v (reading.read string) := by
  have hplaces : ∀ x ∈ (ofStrings order reading strings).nodes.zipIdx.flatMap
      (fun x => x.1.ended.map (·, x.2)),
      ∀ string weight, strings[x.1]? = some (string, weight) →
        (ofStrings order reading strings).Spells x.2 (reading.read string) := by
    intro x hx string weight hget
    obtain ⟨⟨node, v⟩, hnode, hmem⟩ := List.mem_flatMap.mp hx
    obtain ⟨j, hj, rfl⟩ := List.mem_map.mp hmem
    have hv := List.mem_zipIdx_iff_getElem?.mp hnode
    have hsound := ofStrings_sound order reading strings
    obtain ⟨w, hw⟩ := hsound.exists_spells (List.getElem?_eq_some_iff.mp hv).1
    obtain ⟨string', weight', hget', hword⟩ := (mem_ended_iff hw hv).mp hj
    obtain ⟨rfl, rfl⟩ := Prod.mk.inj (Option.some.inj (hget.symm.trans hget'))
    rw [hword]
    exact hw
  have hlt := (List.getElem?_eq_some_iff.mp h).1
  obtain ⟨x, node, hx, hnode, hi⟩ := exists_spells_of_string order reading h
  have hmem : (i, x) ∈ (ofStrings order reading strings).nodes.zipIdx.flatMap
      (fun x => x.1.ended.map (·, x.2)) :=
    List.mem_flatMap.mpr ⟨(node, x), List.mem_zipIdx_iff_getElem?.mpr hnode,
      List.mem_map.mpr ⟨i, hi, rfl⟩⟩
  have hsize : i < (Array.replicate (ofStrings order reading strings).strings 0).size := by
    rw [Array.size_replicate]
    exact hlt
  obtain ⟨v, hv, hspells⟩ := foldl_set_getElem? (fun i v => ∀ string weight,
    strings[i]? = some (string, weight) →
      (ofStrings order reading strings).Spells v (reading.read string)) hplaces hsize hmem
  have hend : (ofStrings order reading strings).ends[i]? = some v := by
    unfold ends
    rw [Array.getElem?_toList]
    exact hv
  exact ⟨v, hend, hspells string weight h⟩

end Lexicon.Shape
