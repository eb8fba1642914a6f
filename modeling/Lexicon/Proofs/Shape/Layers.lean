/-
Lexicon.Proofs.Shape.Layers — nodes with fewer edges above them have smaller numbers.

The children of a node come before the children of a later node (`Enters.lt_of_lt`), so
what stands so many edges below a node comes before what stands as many edges below a
later one (`Descends.lt_of_lt`). From the root this says that the layers of the tree stand
one behind the other (`Sound.lt_of_descends`), and that in a layer the nodes stand in the
order in which a depth-first walk meets them (`Sound.lt_of_precedes`). The words tell both: how
many edges lead to a node (`Spells.descends_depth`), and which of two nodes is met first.
-/
import Lexicon.Proofs.Shape.Forks
import Lexicon.Proofs.Shape.Louds
import Lexicon.Proofs.Shape.Order

namespace Lexicon.Shape

/-- So many edges lead down from one node to another. -/
inductive Descends (s : Shape) (u : Nat) : Nat → Nat → Prop
  | here : Descends s u 0 u
  | down {n v z : Nat} {e : Edge} : Descends s u n v → s.Enters v e z → Descends s u (n + 1) z

variable {s : Shape} {u u' v v' z z' m n : Nat}

/-! ## Layers -/

/-- The children of a node stand before those of a later one. -/
theorem Enters.lt_of_lt {e e' : Edge} (he : s.Enters u e v) (he' : s.Enters u' e' v')
    (h : u < u') : v < v' := by
  obtain ⟨j, hj, rfl⟩ := he.exists_offset
  obtain ⟨j', _, rfl⟩ := he'.exists_offset
  have hnext := firstChild_succ (lt_length_of_degree hj)
  have hle : s.firstChild (u + 1) ≤ s.firstChild u' := firstChild_le h
  omega

theorem Descends.lt_of_lt (h : s.Descends u n z) (h' : s.Descends u' n z') (hlt : u < u') :
    z < z' := by
  induction h generalizing z' with
  | here =>
    cases h'
    exact hlt
  | down _ he ih =>
    cases h' with
    | down hv' he' => exact he.lt_of_lt he' (ih hv')

theorem Descends.trans (h : s.Descends u m v) (h' : s.Descends v n z) :
    s.Descends u (m + n) z := by
  induction h' with
  | here => exact h
  | down _ he ih => exact ih.down he

/-- A way down can be cut anywhere. -/
theorem Descends.exists_between (h : s.Descends u (m + n) z) :
    ∃ v, s.Descends u m v ∧ s.Descends v n z := by
  induction n generalizing z with
  | zero => exact ⟨z, h, .here⟩
  | succ n ih =>
    cases h with
    | down hv he =>
      obtain ⟨x, hx, hxv⟩ := ih hv
      exact ⟨x, hx, hxv.down he⟩

theorem Above.exists_descends (h : s.Above u v) : ∃ n, s.Descends u n v := by
  induction h with
  | refl => exact ⟨0, .here⟩
  | tail _ hstep ih =>
    obtain ⟨n, hn⟩ := ih
    obtain ⟨e, he⟩ := hstep
    exact ⟨n + 1, hn.down he⟩

theorem Sound.add_le_of_descends (h : s.Sound) (hz : s.Descends u n z) : u + n ≤ z := by
  induction hz with
  | here => exact Nat.le_refl _
  | down _ he ih => exact Nat.lt_of_le_of_lt ih (h.lt_of_enters he)

/-- A node with fewer edges above it stands before one with more: on the way to the second there is
a node with as many edges below it, and that one is not the root. -/
theorem Sound.lt_of_descends (h : s.Sound) (hz : s.Descends 0 m z) (hz' : s.Descends 0 n z')
    (hlt : m < n) : z < z' := by
  obtain ⟨d, rfl⟩ := Nat.exists_eq_add_of_lt hlt
  rw [Nat.add_assoc, Nat.add_comm] at hz'
  obtain ⟨v, hv, hvz⟩ := hz'.exists_between
  have hpos := h.add_le_of_descends hv
  exact hz.lt_of_lt hvz (by omega)

theorem Sound.descends_unique (h : s.Sound) (hm : s.Descends 0 m z) (hn : s.Descends 0 n z) :
    m = n := by
  rcases Nat.lt_trichotomy m n with hlt | heq | hgt
  · exact absurd (h.lt_of_descends hm hn hlt) (Nat.lt_irrefl z)
  · exact heq
  · exact absurd (h.lt_of_descends hn hm hgt) (Nat.lt_irrefl z)

/-! ## In one layer -/

/-- Behind a word the edge for the first byte leads to a smaller node than that for the second. -/
def Elder (s : Shape) (w : List UInt8) (a b : UInt8) : Prop :=
  ∃ u v v' e e', s.Spells u w ∧ s.Enters u e v ∧ s.Enters u e' v' ∧ e.label.head? = some a
    ∧ e'.label.head? = some b ∧ v < v'

theorem ranked_by_number : s.Ranked s.Elder := by
  intro u v v' w e e' a b hu he he' hlt ha hb
  exact ⟨u, v, v', e, e', hu, he, he', ha, hb, hlt⟩

/-- The node that a way down from a child leads to has the edges above it that the way goes by and
those above the child. -/
theorem Sound.exists_descends_child (h : s.Sound) {e : Edge} (hu : s.Descends 0 m u)
    (he : s.Enters u e v) (hvz : s.Above v z) (hz : s.Descends 0 n z) :
    ∃ k, n = m + 1 + k ∧ s.Descends v k z := by
  obtain ⟨k, hk⟩ := hvz.exists_descends
  exact ⟨k, h.descends_unique hz ((hu.down he).trans hk), hk⟩

/-- In one layer a node that is met earlier has the smaller number. -/
theorem Sound.lt_of_precedes (h : s.Sound) {x y : List UInt8} (hx : s.Spells z x)
    (hy : s.Spells z' y) (hz : s.Descends 0 n z) (hz' : s.Descends 0 n z')
    (hxy : Precedes s.Elder x y) : z < z' := by
  rcases hxy with ⟨⟨more, rfl⟩, hne⟩ | ⟨w, a, b, x', y', rfl, rfl, _, helder⟩
  · have hle := h.le_of_above (h.above_of_append hx hy)
    refine Nat.lt_of_le_of_ne hle ?_
    rintro rfl
    exact hne (hx.unique hy)
  · obtain ⟨u, v, v', e, e', hu, he, he', ha, hb, hlt⟩ := helder
    have hvz := (h.next_eq hu he (List.cons_ne_nil a x') (by rw [ha, List.head?_cons]) hx).1
    have hvz' := (h.next_eq hu he' (List.cons_ne_nil b y') (by rw [hb, List.head?_cons]) hy).1
    obtain ⟨m, hm⟩ := (root_above hu).exists_descends
    obtain ⟨k, hk, hdown⟩ := h.exists_descends_child hm he hvz hz
    obtain ⟨k', hk', hdown'⟩ := h.exists_descends_child hm he' hvz' hz'
    obtain rfl : k = k' := by omega
    exact hdown.lt_of_lt hdown' hlt

/-! ## Told from the words -/

variable {order : SiblingOrder} {reading : Reading} {strings : List (List UInt8 × Weight)}

/-- There are as many edges above a node as stops on its word. -/
theorem Spells.descends_depth {w : List UInt8} (h : (ofStrings order reading strings).Spells v w) :
    (ofStrings order reading strings).Descends 0 (depth (wordsOf reading strings) w) v := by
  induction h with
  | root =>
    rw [depth_nil]
    exact .here
  | down hu he ih =>
    rw [depth_of_enters hu he]
    exact ih.down he

/-- Of two nodes the one with fewer stops on its word has the smaller number, and of two with
equally many the one whose word comes first in a list of the words in depth-first order. -/
theorem lt_iff_of_spells {x y : List UInt8} {words : List (List UInt8)}
    (hx : (ofStrings order reading strings).Spells z x)
    (hy : (ofStrings order reading strings).Spells z' y) (hne : x ≠ y)
    (hwords : words.Pairwise (Precedes (ofStrings order reading strings).Elder)) (hxw : x ∈ words)
    (hyw : y ∈ words) :
    z < z' ↔ depth (wordsOf reading strings) x < depth (wordsOf reading strings) y
      ∨ (depth (wordsOf reading strings) x = depth (wordsOf reading strings) y
        ∧ [x, y].Sublist words) := by
  have hsound := ofStrings_sound order reading strings
  have hz := hx.descends_depth
  have hz' := hy.descends_depth
  have hprecedes : ∀ {x y}, [x, y].Sublist words →
      Precedes (ofStrings order reading strings).Elder x y :=
    fun hsublist => (List.pairwise_cons.mp (hwords.sublist hsublist)).1 _ (by simp)
  constructor
  · intro hlt
    rcases Nat.lt_trichotomy (depth (wordsOf reading strings) x) (depth (wordsOf reading strings) y)
      with hless | heq | hmore
    · exact Or.inl hless
    · refine Or.inr ⟨heq, (pair_sublist_or hxw hyw hne).resolve_right ?_⟩
      intro hyx
      have hgt := hsound.lt_of_precedes hy hx hz' (heq ▸ hz) (hprecedes hyx)
      exact Nat.lt_asymm hlt hgt
    · exact absurd (hsound.lt_of_descends hz' hz hmore) (Nat.lt_asymm hlt)
  · rintro (hless | ⟨heq, hxy⟩)
    · exact hsound.lt_of_descends hz hz' hless
    · rw [heq] at hz
      exact hsound.lt_of_precedes hx hy hz hz' (hprecedes hxy)

end Lexicon.Shape
