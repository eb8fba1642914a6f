/-
Lexicon.Proofs.Shape.Forks — where the nodes of a tree are, and how many edges lead to each.

Edges end where a string ends or where two strings part, and nowhere else: a node is made
from strings that have no more than its word in common (`exists_end_or_fork`), and two strings
that part are led to the same node up to there (`Sound.exists_spells_of_parting`). So the words
of the nodes are the empty one, the strings and the forks (`Shape.exists_spells_iff`), and on the
way from a node to its child there is one stop, the child itself (`Shape.depth_of_enters`).
-/
import Lexicon.Proofs.Agreement
import Lexicon.Proofs.Shape.Words
import Mathlib.Data.List.Infix

namespace Lexicon

/-! ## Forks -/

/-- Two strings start with these bytes and go on with different ones. -/
def Forks (strings : List (List UInt8)) (front : List UInt8) : Prop :=
  ∃ a b, a ≠ b ∧ (∃ x ∈ strings, front ++ [a] <+: x) ∧ ∃ y ∈ strings, front ++ [b] <+: y

/-- One string or more end with these bytes, which are not none, or fork behind them. -/
def Stops (strings : List (List UInt8)) (front : List UInt8) : Prop :=
  front ≠ [] ∧ (front ∈ strings ∨ Forks strings front)

/-- Strings fork where the common front of two of them is neither of the two. -/
theorem forks_iff {strings : List (List UInt8)} {front : List UInt8} : Forks strings front ↔
    ∃ x ∈ strings, ∃ y ∈ strings, commonPrefix x y = front ∧ x ≠ front ∧ y ≠ front := by
  constructor
  · rintro ⟨a, b, hab, ⟨x, hx, ⟨x', rfl⟩⟩, y, hy, y', rfl⟩
    refine ⟨_, hx, _, hy, ?_, by simp, by simp⟩
    rw [List.append_assoc, List.append_assoc]
    exact commonPrefix_of_parting front hab x' y'
  · rintro ⟨x, hx, y, hy, hcommon, hxne, hyne⟩
    rcases Agreement.between_cases false x y with ⟨more, rfl, _⟩ | ⟨more, _, rfl, _⟩
      | ⟨p, a, b, x', y', hab, rfl, rfl, _⟩
    · exact absurd ((commonPrefix_of_front (List.prefix_append x more)).symm.trans hcommon) hxne
    · exact absurd ((commonPrefix_of_front_right (List.prefix_append y more)).symm.trans hcommon)
        hyne
    · rw [commonPrefix_of_parting p hab] at hcommon
      subst hcommon
      exact ⟨a, b, hab, ⟨_, hx, x', by simp⟩, _, hy, y', by simp⟩

instance (strings : List (List UInt8)) (front : List UInt8) : Decidable (Forks strings front) :=
  decidable_of_iff _ forks_iff.symm

instance (strings : List (List UInt8)) (front : List UInt8) : Decidable (Stops strings front) :=
  inferInstanceAs (Decidable (_ ∧ _))

/-- The number of stops among the fronts of a word, itself included. -/
def depth (strings : List (List UInt8)) (word : List UInt8) : Nat :=
  word.inits.countP fun front => Stops strings front

@[simp] theorem depth_nil (strings : List (List UInt8)) : depth strings [] = 0 := by
  simp [depth, Stops]

/-- One more byte adds one to the depth if there is a stop behind it. -/
theorem depth_concat (strings : List (List UInt8)) (front : List UInt8) (b : UInt8) :
    depth strings (front ++ [b])
      = depth strings front + if Stops strings (front ++ [b]) then 1 else 0 := by
  rw [depth, List.inits_append, List.countP_append]
  simp [depth, List.countP_singleton]

/-! ## Between a node and its children -/

/-- Of the strings that take an edge one ends with the label, or two go on with different bytes. -/
theorem exists_end_or_fork {order : SiblingOrder} {strings : List Pending} {e : Edge}
    (he : e ∈ (Node.ofPending order strings).edges) :
    (∃ p ∈ e.below, p.rest = [])
      ∨ ∃ a b, a ≠ b ∧ (∃ p ∈ e.below, [a] <+: p.rest) ∧ ∃ q ∈ e.below, [b] <+: q.rest := by
  by_contra hnone
  obtain ⟨hends, hforks⟩ := not_or.mp hnone
  obtain ⟨p, hp⟩ := List.exists_mem_of_ne_nil e.below (below_ne_nil_of_edge he)
  have hgoes : ∀ q ∈ e.below, ∃ b, [b] <+: q.rest := by
    intro q hq
    obtain ⟨b, more, hmore⟩ := List.exists_cons_of_ne_nil fun hnil => hends ⟨q, hq, hnil⟩
    exact ⟨b, more, hmore.symm⟩
  obtain ⟨a, ha⟩ := hgoes p hp
  have hsame : ∀ q ∈ e.below, [a] <+: q.rest := by
    intro q hq
    obtain ⟨b, hb⟩ := hgoes q hq
    by_cases hab : a = b
    · rwa [hab]
    · exact absurd ⟨a, b, hab, ⟨p, hp, ha⟩, q, hq, hb⟩ hforks
  -- then the label could have been longer by a byte
  obtain ⟨run, hrun, hlabel, hbelow⟩ := exists_run_of_edge he
  have hlonger : runLabel run ++ [a] <+: runLabel run := by
    apply prefix_runLabel (run_ne_nil hrun)
    intro q hq
    rw [rest_eq_runLabel_append hq, List.prefix_append_right_inj]
    refine hsame { q with rest := q.rest.drop (runLabel run).length } ?_
    rw [hbelow]
    exact List.mem_map_of_mem hq
  have hlength := hlonger.length_le
  rw [List.length_append, List.length_singleton] at hlength
  omega

namespace Shape

variable {s : Shape}

/-- Up to where two words part one node leads to both. -/
theorem Sound.exists_spells_of_parting (h : s.Sound) {x y u : Nat} {w front l l' : List UInt8}
    {a b : UInt8} (hu : s.Spells u w) (hab : a ≠ b) (hx : s.Spells x (w ++ (front ++ a :: l)))
    (hy : s.Spells y (w ++ (front ++ b :: l'))) : ∃ v, s.Spells v (w ++ front) := by
  by_cases hfront : front = []
  · exact ⟨u, by rwa [hfront, List.append_nil]⟩
  · obtain ⟨e, v, rest, he, _, hsplit⟩ := h.exists_next hu hx (by simp)
    have hlabel := h.label_ne_nil he
    have hhead : e.label.head? = (front ++ b :: l').head? := by
      have hsame := congrArg List.head? hsplit
      rw [List.head?_append_of_ne_nil _ hfront, List.head?_append_of_ne_nil _ hlabel] at hsame
      rw [← hsame, List.head?_append_of_ne_nil _ hfront]
    -- the label is on both ways, so it ends before they part
    have hboth : e.label <+: commonPrefix (front ++ a :: l) (front ++ b :: l') :=
      prefix_commonPrefix (hsplit ▸ List.prefix_append _ _) (h.next_eq hu he (by simp) hhead hy).2
    rw [commonPrefix_of_parting front hab] at hboth
    obtain ⟨front', hfront'⟩ := hboth
    have hshorter : front'.length < front.length := by
      have hpos := List.length_pos_iff.mpr hlabel
      rw [← hfront', List.length_append]
      omega
    rw [← hfront', List.append_assoc, ← List.append_assoc] at hx hy
    obtain ⟨z, hz⟩ := h.exists_spells_of_parting (hu.down he) hab hx hy
    exact ⟨z, by rwa [← hfront', ← List.append_assoc]⟩
termination_by front.length

/-! ## The words of the nodes -/

variable {order : SiblingOrder} {reading : Reading} {strings : List (List UInt8 × Weight)}

/-- The strings as the tree reads them. -/
def wordsOf (reading : Reading) (strings : List (List UInt8 × Weight)) : List (List UInt8) :=
  strings.map fun x => reading.read x.1

theorem exists_spells_of_mem (order : SiblingOrder) {x : List UInt8}
    (hx : x ∈ wordsOf reading strings) : ∃ v, (ofStrings order reading strings).Spells v x := by
  obtain ⟨⟨string, weight⟩, hmem, rfl⟩ := List.mem_map.mp hx
  obtain ⟨i, hi⟩ := List.mem_iff_getElem?.mp hmem
  obtain ⟨v, _, hv, _⟩ := exists_spells_of_string order reading hi
  exact ⟨v, hv⟩

theorem stops_of_enters {u v : Nat} {w : List UInt8} {e : Edge}
    (hu : (ofStrings order reading strings).Spells u w)
    (he : (ofStrings order reading strings).Enters u e v) :
    Stops (wordsOf reading strings) (w ++ e.label) := by
  have hsound := ofStrings_sound order reading strings
  refine ⟨by simp [hsound.label_ne_nil he], ?_⟩
  obtain ⟨ps, hnode, hps⟩ := exists_pending_of_spells hu
  obtain ⟨j, hj, _⟩ := he.exists_edge hnode
  have hedge := List.mem_of_getElem? hj
  have hword : ∀ p ∈ e.below, w ++ e.label ++ p.rest ∈ wordsOf reading strings := by
    intro p hp
    obtain ⟨q, hq, hrest, _⟩ := exists_pending_of_edge hedge hp
    obtain ⟨string, weight, hget, hread⟩ := hps q hq
    rw [List.append_assoc, ← hrest, ← hread]
    exact List.mem_map_of_mem (List.mem_of_getElem? hget)
  rcases exists_end_or_fork hedge with ⟨p, hp, hnil⟩ | ⟨a, b, hab, ⟨p, hp, ha⟩, q, hq, hb⟩
  · have hmem := hword p hp
    rw [hnil, List.append_nil] at hmem
    exact Or.inl hmem
  · exact Or.inr ⟨a, b, hab, ⟨_, hword p hp, (List.prefix_append_right_inj _).mpr ha⟩, _, hword q hq,
      (List.prefix_append_right_inj _).mpr hb⟩

/-- The words of the nodes are the empty one, the strings, and the fronts behind which strings go on
with different bytes. -/
theorem exists_spells_iff {w : List UInt8} : (∃ v, (ofStrings order reading strings).Spells v w)
    ↔ w = [] ∨ Stops (wordsOf reading strings) w := by
  have hsound := ofStrings_sound order reading strings
  constructor
  · rintro ⟨v, hv⟩
    cases hv with
    | root => exact Or.inl rfl
    | down hu he => exact Or.inr (stops_of_enters hu he)
  · rintro (rfl | ⟨_, hmem | ⟨a, b, hab, ⟨x, hx, l, rfl⟩, y, hy, l', rfl⟩⟩)
    · exact ⟨0, .root⟩
    · exact exists_spells_of_mem order hmem
    · obtain ⟨x, hx⟩ := exists_spells_of_mem order hx
      obtain ⟨y, hy⟩ := exists_spells_of_mem order hy
      rw [List.append_assoc] at hx hy
      exact hsound.exists_spells_of_parting .root hab hx hy

/-- On the way along an edge there is no stop before its end. -/
theorem not_stops_inside {u v : Nat} {w front : List UInt8} {e : Edge} {b : UInt8}
    (hu : (ofStrings order reading strings).Spells u w)
    (he : (ofStrings order reading strings).Enters u e v) (hlabel : e.label = front ++ [b])
    {p : List UInt8} (hp : p <+: front) (hne : p ≠ []) :
    ¬Stops (wordsOf reading strings) (w ++ p) := by
  intro hstop
  obtain ⟨x, hx⟩ := exists_spells_iff.mpr (Or.inr hstop)
  exact (ofStrings_sound order reading strings).not_spells_inside hu he (List.cons_ne_nil b [])
    hlabel hp hne x hx

/-- An edge leads one stop further. -/
theorem depth_of_enters {u v : Nat} {w : List UInt8} {e : Edge}
    (hu : (ofStrings order reading strings).Spells u w)
    (he : (ofStrings order reading strings).Enters u e v) :
    depth (wordsOf reading strings) (w ++ e.label) = depth (wordsOf reading strings) w + 1 := by
  obtain ⟨front, b, hlabel⟩ := (List.eq_nil_or_concat' e.label).resolve_left
    ((ofStrings_sound order reading strings).label_ne_nil he)
  have hinside : ∀ p, p <+: front →
      depth (wordsOf reading strings) (w ++ p) = depth (wordsOf reading strings) w := by
    intro p
    induction p using List.reverseRecOn with
    | nil => intro _; rw [List.append_nil]
    | append_singleton p c ih =>
      intro hp
      have hstop := not_stops_inside hu he hlabel hp (by simp)
      rw [← List.append_assoc] at hstop ⊢
      rw [depth_concat, if_neg hstop, Nat.add_zero, ih ((List.prefix_append p [c]).trans hp)]
  have hstop := stops_of_enters hu he
  rw [hlabel, ← List.append_assoc] at hstop ⊢
  rw [depth_concat, if_pos hstop, hinside front (List.prefix_refl front)]

end Shape

end Lexicon
