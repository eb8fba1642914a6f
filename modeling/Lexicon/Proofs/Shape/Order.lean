/-
Lexicon.Proofs.Shape.Order — the order in which a depth-first walk meets the words.

Where two words part, the edges that lead on stand in the order of their node, so it is
enough to know how the siblings of each node stand (`Shape.Ranked`). `Precedes` puts a
proper front first and orders words that part by their first different bytes;
`Shape.subtree_pairwise` says that a subtree is listed in just this order, by
induction on the subtree. The order is strict (`Precedes.asymm`), so standing earlier in
such a list and preceding are one (`pair_sublist_iff`).
-/
import Lexicon.Proofs.Shape.Preorder

namespace Lexicon

/-- A word is a proper front of another, or its byte ranks first where they part. -/
def Precedes (ranks : List UInt8 → UInt8 → UInt8 → Prop) (x y : List UInt8) : Prop :=
  (x <+: y ∧ x ≠ y)
    ∨ ∃ p a b x' y', x = p ++ a :: x' ∧ y = p ++ b :: y' ∧ a ≠ b ∧ ranks p a b

variable {ranks : List UInt8 → UInt8 → UInt8 → Prop}

/-- Two words part at one place only. -/
theorem parting_unique : ∀ {p q x x' y y' : List UInt8} {a b c d : UInt8},
    p ++ a :: x = q ++ c :: x' → p ++ b :: y = q ++ d :: y' → a ≠ b → c ≠ d →
    p = q ∧ a = c ∧ b = d
  | [], [], _, _, _, _, _, _, _, _, hx, hy, _, _ =>
      ⟨rfl, (List.cons.inj hx).1, (List.cons.inj hy).1⟩
  | [], _ :: _, _, _, _, _, _, _, _, _, hx, hy, hab, _ =>
      absurd ((List.cons.inj hx).1.trans (List.cons.inj hy).1.symm) hab
  | _ :: _, [], _, _, _, _, _, _, _, _, hx, hy, _, hcd =>
      absurd ((List.cons.inj hx).1.symm.trans (List.cons.inj hy).1) hcd
  | _ :: _, _ :: _, _, _, _, _, _, _, _, _, hx, hy, hab, hcd => by
      obtain ⟨hhead, hx⟩ := List.cons.inj hx
      obtain ⟨_, hy⟩ := List.cons.inj hy
      obtain ⟨hpq, hac, hbd⟩ := parting_unique hx hy hab hcd
      exact ⟨by rw [hhead, hpq], hac, hbd⟩

theorem not_prefix_of_parting {p x y : List UInt8} {a b : UInt8} (h : a ≠ b) :
    ¬p ++ a :: x <+: p ++ b :: y := by
  rw [List.prefix_append_right_inj, List.cons_prefix_cons]
  exact fun hprefix => h hprefix.1

/-- No two words precede each other, if no two bytes do at one place. -/
theorem Precedes.asymm (hranks : ∀ p a b, ranks p a b → ¬ranks p b a) {x y : List UInt8}
    (h : Precedes ranks x y) : ¬Precedes ranks y x := by
  rcases h with ⟨hfront, hne⟩ | ⟨p, a, b, x', y', rfl, rfl, hab, hrank⟩
  · rintro (⟨hback, _⟩ | ⟨p, a, b, y', x', rfl, rfl, hab, _⟩)
    · exact hne (hfront.eq_of_length_le hback.length_le)
    · exact not_prefix_of_parting hab.symm hfront
  · rintro (⟨hback, _⟩ | ⟨q, c, d, x'', y'', hy, hx, hcd, hrank'⟩)
    · exact not_prefix_of_parting hab.symm hback
    · obtain ⟨rfl, rfl, rfl⟩ := parting_unique hx hy hab hcd.symm
      exact hranks _ _ _ hrank hrank'

/-- If bytes rank by their numbers, to precede is to be less as a list of bytes. -/
theorem Precedes.lt {x y : List UInt8} (h : Precedes (fun _ a b => a < b) x y) : x < y := by
  rcases h with ⟨⟨more, rfl⟩, hne⟩ | ⟨p, a, b, x', y', rfl, rfl, _, hab⟩
  · cases more with
    | nil => exact absurd (List.append_nil x).symm hne
    | cons b more =>
      have hlex := List.Lex.append_left (· < ·) (List.Lex.nil : List.Lex (· < ·) [] (b :: more)) x
      rwa [List.append_nil] at hlex
  · exact List.Lex.append_left (· < ·) (List.Lex.rel hab) p

/-! ## Pairs of a list -/

/-- Of two members of a list one stands before the other. -/
theorem pair_sublist_or {α : Type} {x y : α} {l : List α} (hx : x ∈ l) (hy : y ∈ l) (hne : x ≠ y) :
    [x, y].Sublist l ∨ [y, x].Sublist l := by
  obtain ⟨front, back, rfl⟩ := List.append_of_mem hx
  rcases List.mem_append.mp hy with hfront | hback
  · have hpair := (List.singleton_sublist.mpr hfront).append
      (List.singleton_sublist.mpr (List.mem_cons_self : x ∈ x :: back))
    exact Or.inr hpair
  · have hmem : y ∈ back := (List.mem_cons.mp hback).resolve_left hne.symm
    have hpair : [x, y].Sublist (x :: back) := (List.singleton_sublist.mpr hmem).cons_cons x
    exact Or.inl (hpair.trans (List.sublist_append_right front _))

/-- In a list that is in a strict order, to stand earlier is to be less. -/
theorem pair_sublist_iff {α : Type} {before : α → α → Prop}
    (hasymm : ∀ x y, before x y → ¬before y x) {l : List α} (h : l.Pairwise before) {x y : α}
    (hx : x ∈ l) (hy : y ∈ l) (hne : x ≠ y) : [x, y].Sublist l ↔ before x y := by
  have hpair : ∀ {x y}, [x, y].Sublist l → before x y :=
    fun hsublist => (List.pairwise_cons.mp (h.sublist hsublist)).1 _ (by simp)
  constructor
  · exact hpair
  · intro hxy
    refine (pair_sublist_or hx hy hne).resolve_right ?_
    intro hyx
    exact hasymm x y hxy (hpair hyx)

/-! ## The words of a subtree -/

namespace Shape

/-- The children of every node stand as their first bytes rank at its word. -/
def Ranked (s : Shape) (ranks : List UInt8 → UInt8 → UInt8 → Prop) : Prop :=
  ∀ {u v v' : Nat} {p : List UInt8} {e e' : Edge} {a b : UInt8}, s.Spells u p → s.Enters u e v →
    s.Enters u e' v' → v < v' → e.label.head? = some a → e'.label.head? = some b → ranks p a b

variable {s : Shape}

/-- A node precedes what is below it. -/
theorem precedes_of_below (h : s.Sound) {v z : Nat} (hz : z ∈ s.nodesFrom v 0) {x y : List UInt8}
    (hx : s.Spells v x) (hy : s.Spells z y) : Precedes ranks x y := by
  have hsubtree : z ∈ s.subtree v := by
    rw [subtree_eq h]
    exact List.mem_cons_of_mem v hz
  obtain ⟨more, hmore⟩ := hx.exists_append (above_of_mem_subtree h hsubtree)
  obtain rfl := hy.unique hmore
  refine Or.inl ⟨List.prefix_append x more, ?_⟩
  intro heq
  have hvz := h.eq_of_spells (heq ▸ hx) hy
  have hnodup := nodup_subtree h v
  rw [subtree_eq h, List.nodup_cons] at hnodup
  exact hnodup.1 (hvz ▸ hz)

/-- What is below a child precedes what is below a later child. -/
theorem precedes_of_siblings (h : s.Sound) (hranked : s.Ranked ranks) {u v v' z z' : Nat}
    {e e' : Edge} (he : s.Enters u e v) (he' : s.Enters u e' v') (hlt : v < v')
    (hz : s.Above v z) (hz' : s.Above v' z') {x y : List UInt8} (hx : s.Spells z x)
    (hy : s.Spells z' y) : Precedes ranks x y := by
  obtain ⟨w, hw⟩ := h.exists_spells (Nat.lt_trans (h.lt_of_enters he) (h.lt_length he))
  obtain ⟨more, hmore⟩ := (hw.down he).exists_append hz
  obtain ⟨more', hmore'⟩ := (hw.down he').exists_append hz'
  obtain rfl := hx.unique hmore
  obtain rfl := hy.unique hmore'
  obtain ⟨a, label, hlabel⟩ := List.exists_cons_of_ne_nil (h.label_ne_nil he)
  obtain ⟨b, label', hlabel'⟩ := List.exists_cons_of_ne_nil (h.label_ne_nil he')
  have hhead : e.label.head? = some a := by rw [hlabel, List.head?_cons]
  have hhead' : e'.label.head? = some b := by rw [hlabel', List.head?_cons]
  refine Or.inr ⟨w, a, b, label ++ more, label' ++ more', by simp [hlabel], by simp [hlabel'], ?_,
    hranked hw he he' hlt hhead hhead'⟩
  intro hab
  refine Nat.ne_of_lt hlt (h.apart he he' ?_)
  rw [hhead, hhead', hab]

/-- A subtree is listed in the order of its words. -/
theorem subtree_pairwise (h : s.Sound) (hranked : s.Ranked ranks) (v : Nat) :
    (s.subtree v).Pairwise fun z z' =>
      ∀ x y, s.Spells z x → s.Spells z' y → Precedes ranks x y := by
  induction hn : s.nodes.length - v using Nat.strong_induction_on generalizing v with
  | _ n ih =>
    rw [subtree_eq h, List.pairwise_cons]
    refine ⟨fun z hz x y hx hy => precedes_of_below h hz hx hy, ?_⟩
    unfold nodesFrom
    rw [List.pairwise_flatMap]
    have hchild : ∀ {i : Nat}, i ∈ List.range' 0 (s.degree v - 0) →
        ∃ e, s.Enters v e (s.firstChild v + i) := by
      intro i hi
      rw [List.mem_range'_1] at hi
      exact exists_child (by omega)
    refine ⟨?_, ?_⟩
    · intro i hi
      obtain ⟨e, he⟩ := hchild hi
      have hlt := h.lt_of_enters he
      have hlength := h.lt_length he
      exact ih (s.nodes.length - (s.firstChild v + i)) (by omega) _ rfl
    · refine List.Pairwise.imp_of_mem ?_ List.pairwise_lt_range'
      intro i j hi hj hij z hz z' hz' x y hx hy
      obtain ⟨e, he⟩ := hchild hi
      obtain ⟨e', he'⟩ := hchild hj
      exact precedes_of_siblings h hranked he he' (by omega) (above_of_mem_subtree h hz)
        (above_of_mem_subtree h hz') hx hy

end Shape

end Lexicon
