/-
Lexicon.Proofs.Shape.Preorder — the nodes below a node, each once.

`Shape.subtree` lists a node and everything below it in the order in which a
depth-first walk meets it, `Shape.nodesFrom` what is left of it once some children are
done. It lists exactly the nodes that the node is above (`mem_subtree`), without
repetition (`nodup_subtree`), so never more than there are (`length_subtree_le`).
-/
import Lexicon.Proofs.Shape.Words
import Mathlib.Data.List.Nodup

namespace Lexicon.Shape

/-- A node and the nodes below it, depth first. -/
def subtree (s : Shape) (v : Nat) : List Nat :=
  v :: (List.range (s.degree v)).flatMap fun i =>
    if _h : v < s.firstChild v + i ∧ s.firstChild v + i < s.nodes.length then
      subtree s (s.firstChild v + i)
    else []
termination_by s.nodes.length - v

/-- The nodes below a node from its `j`-th child on, depth first. -/
def nodesFrom (s : Shape) (v j : Nat) : List Nat :=
  (List.range' j (s.degree v - j)).flatMap fun i => s.subtree (s.firstChild v + i)

variable {s : Shape}

theorem nodesFrom_of_lt {v j : Nat} (h : j < s.degree v) :
    s.nodesFrom v j = s.subtree (s.firstChild v + j) ++ s.nodesFrom v (j + 1) := by
  have hlength : s.degree v - j = s.degree v - (j + 1) + 1 := by omega
  unfold nodesFrom
  rw [hlength, List.range'_succ, List.flatMap_cons]

@[simp] theorem nodesFrom_degree (s : Shape) (v : Nat) : s.nodesFrom v (s.degree v) = [] := by
  simp [nodesFrom]

theorem subtree_eq (h : s.Sound) (v : Nat) : s.subtree v = v :: s.nodesFrom v 0 := by
  rw [subtree, nodesFrom, Nat.sub_zero, ← List.range_eq_range']
  congr 1
  apply List.flatMap_congr
  intro i hi
  obtain ⟨e, he⟩ := exists_child (List.mem_range.mp hi)
  rw [dif_pos ⟨h.lt_of_enters he, h.lt_length he⟩]

theorem mem_nodesFrom {v j z : Nat} :
    z ∈ s.nodesFrom v j ↔ ∃ i, j ≤ i ∧ i < s.degree v ∧ z ∈ s.subtree (s.firstChild v + i) := by
  unfold nodesFrom
  simp only [List.mem_flatMap, List.mem_range'_1]
  constructor
  · rintro ⟨i, hi, hz⟩
    exact ⟨i, hi.1, by omega, hz⟩
  · rintro ⟨i, hj, hi, hz⟩
    exact ⟨i, ⟨hj, by omega⟩, hz⟩

theorem above_of_mem_subtree (h : s.Sound) {v z : Nat} (hz : z ∈ s.subtree v) : s.Above v z := by
  induction hn : s.nodes.length - v using Nat.strong_induction_on generalizing v with
  | _ n ih =>
    rw [subtree_eq h, List.mem_cons, mem_nodesFrom] at hz
    rcases hz with rfl | ⟨i, _, hi, hz⟩
    · exact Relation.ReflTransGen.refl
    · obtain ⟨e, he⟩ := exists_child hi
      have hlt := h.lt_of_enters he
      have hlength := h.lt_length he
      have hbelow := ih (s.nodes.length - (s.firstChild v + i)) (by omega) hz rfl
      exact he.above.trans hbelow

theorem mem_subtree (h : s.Sound) {v z : Nat} : z ∈ s.subtree v ↔ s.Above v z := by
  constructor
  · exact above_of_mem_subtree h
  · intro hvz
    induction hvz using Relation.ReflTransGen.head_induction_on with
    | refl =>
      rw [subtree_eq h]
      exact List.mem_cons_self
    | @head u v hstep _ ih =>
      obtain ⟨e, he⟩ := hstep
      obtain ⟨j, hj, rfl⟩ := he.exists_offset
      rw [subtree_eq h, List.mem_cons, mem_nodesFrom]
      exact Or.inr ⟨j, Nat.zero_le j, hj, ih⟩

/-- The nodes below a node stand together in the list of any node above it. -/
theorem subtree_block (h : s.Sound) {u v : Nat} (huv : s.Above u v) :
    s.subtree v <:+: s.subtree u := by
  induction huv using Relation.ReflTransGen.head_induction_on with
  | refl => exact List.infix_refl _
  | @head u x hstep _ ih =>
    obtain ⟨e, he⟩ := hstep
    obtain ⟨j, hj, rfl⟩ := he.exists_offset
    have hrange : j ∈ List.range' 0 (s.degree u - 0) := List.mem_range'_1.mpr (by omega)
    have hchild : s.subtree (s.firstChild u + j) <:+: s.nodesFrom u 0 :=
      List.infix_flatMap_of_mem hrange fun i => s.subtree (s.firstChild u + i)
    rw [subtree_eq h u]
    exact (ih.trans hchild).trans (List.suffix_cons u _).isInfix

/-- Below two different children of a node there is no common node. -/
theorem Sound.eq_of_above (h : s.Sound) {u v v' z : Nat} {e e' : Edge} (he : s.Enters u e v)
    (he' : s.Enters u e' v') (hz : s.Above v z) (hz' : s.Above v' z) : v = v' := by
  have hu := Nat.lt_trans (h.lt_of_enters he) (h.lt_length he)
  obtain ⟨w, hw⟩ := h.exists_spells hu
  obtain ⟨more, hmore⟩ := (hw.down he).exists_append hz
  obtain ⟨more', hmore'⟩ := (hw.down he').exists_append hz'
  have heq := hmore.unique hmore'
  rw [List.append_assoc, List.append_assoc] at heq
  exact h.eq_of_append he he' (List.append_cancel_left heq)

theorem nodup_subtree (h : s.Sound) (v : Nat) : (s.subtree v).Nodup := by
  induction hn : s.nodes.length - v using Nat.strong_induction_on generalizing v with
  | _ n ih =>
    rw [subtree_eq h, List.nodup_cons]
    refine ⟨?_, ?_⟩
    · intro hmem
      obtain ⟨i, _, hi, hz⟩ := mem_nodesFrom.mp hmem
      obtain ⟨e, he⟩ := exists_child hi
      have hle := h.le_of_above (above_of_mem_subtree h hz)
      have hlt := h.lt_of_enters he
      omega
    · unfold nodesFrom
      rw [List.nodup_flatMap]
      refine ⟨?_, ?_⟩
      · intro i hi
        obtain ⟨e, he⟩ := exists_child (show i < s.degree v by
          rw [List.mem_range'_1] at hi
          omega)
        have hlt := h.lt_of_enters he
        have hlength := h.lt_length he
        exact ih (s.nodes.length - (s.firstChild v + i)) (by omega) _ rfl
      · have hrange : (List.range' 0 (s.degree v - 0)).Nodup := List.nodup_range'
        refine List.Pairwise.imp_of_mem ?_ hrange
        intro i j hi hj hne z hz hz'
        rw [List.mem_range'_1] at hi hj
        obtain ⟨e, he⟩ := exists_child (show i < s.degree v by omega)
        obtain ⟨e', he'⟩ := exists_child (show j < s.degree v by omega)
        have heq := h.eq_of_above he he' (above_of_mem_subtree h hz) (above_of_mem_subtree h hz')
        exact hne (Nat.add_left_cancel heq)

theorem lt_length_of_above (h : s.Sound) {v z : Nat} (hv : v < s.nodes.length)
    (hz : s.Above v z) : z < s.nodes.length := by
  induction hz with
  | refl => exact hv
  | tail _ hstep _ =>
    obtain ⟨e, he⟩ := hstep
    exact h.lt_length he

theorem length_subtree_le (h : s.Sound) {v : Nat} (hv : v < s.nodes.length) :
    (s.subtree v).length ≤ s.nodes.length := by
  have hsubset : s.subtree v ⊆ List.range s.nodes.length := by
    intro z hz
    exact List.mem_range.mpr (lt_length_of_above h hv (above_of_mem_subtree h hz))
  have hle := (List.subperm_of_subset (nodup_subtree h v) hsubset).length_le
  rwa [List.length_range] at hle

end Lexicon.Shape
