/-
Lexicon.Proofs.Cascade.Building — building always succeeds, and the levels tell the strings.

The labels of a level's links are the strings of the next level, so `build_induction` goes
by induction on the number of levels that may follow: the level below is built, and its
ends are the targets of this one. `build_spec` is the case that the searches need: by what
is known of the level below, each target stands for its label. Labels are made from the
bytes of the strings, so no level and no tail needs more bytes than the keys have, and no
limit of the layout is reached: the vectors of a level can be counted (`checked_ofShape`)
and its labels have room in a tail (`room_of_labels`).
-/
import Lexicon.Proofs.Cascade.Links
import Lexicon.Proofs.Tail.Filling
import Mathlib.Algebra.Order.BigOperators.Group.List

namespace Lexicon.Cascade

variable {config : Config} {reading : Reading} {strings : List (List UInt8 × Weight)}

/-- The bytes of some strings. -/
def bytesOf (strings : List (List UInt8 × Weight)) : Nat :=
  (strings.map (·.1.length)).sum

/-- The strings that a level hands on: the labels of its links, in the order in which it reads. -/
def labelsOf (reading : Reading) (s : Shape) : List (List UInt8 × Weight) :=
  s.linkLabels.map fun (label, weight) => (reading.read label, weight)

theorem labelsOf_getElem? (reading : Reading) {s : Shape} {k : Nat} {label : List UInt8}
    {weight : Weight}
    (h : s.linkLabels[k]? = some (label, weight)) :
    (labelsOf reading s)[k]? = some (reading.read label, weight) := by
  rw [labelsOf, List.getElem?_map, h]
  rfl

theorem isLink_of_linkLabels {s : Shape} {label : List UInt8} {weight : Weight}
    (h : (label, weight) ∈ s.linkLabels) : 1 < label.length := by
  obtain ⟨x, hx, heq⟩ := List.mem_map.mp h
  obtain ⟨rfl, rfl⟩ := Prod.mk.inj heq
  exact of_decide_eq_true (List.mem_filter.mp hx).2

theorem labelsOf_pos (reading : Reading) (s : Shape) :
    ∀ x ∈ labelsOf reading s, 1 ≤ x.1.length := by
  intro x hx
  obtain ⟨⟨label, weight⟩, hlabel, rfl⟩ := List.mem_map.mp hx
  have hlength := isLink_of_linkLabels hlabel
  rw [Shape.length_read]
  omega

theorem labels_ne_nil (reading : Reading) (s : Shape) :
    ∀ string ∈ (labelsOf reading s).map (·.1), string ≠ [] := by
  intro string hstring
  obtain ⟨x, hx, rfl⟩ := List.mem_map.mp hstring
  exact List.length_pos_iff.mp (labelsOf_pos reading s x hx)

/-- The labels that are handed on have no more bytes than the strings. -/
theorem bytesOf_labelsOf_le (order : SiblingOrder) (reading : Reading)
    (strings : List (List UInt8 × Weight)) :
    bytesOf (labelsOf reading (Shape.ofStrings order reading strings)) ≤ bytesOf strings := by
  refine Nat.le_trans ?_ (Shape.sum_labels_le order reading strings)
  rw [bytesOf, labelsOf, Shape.linkLabels, List.map_map, List.map_map]
  have hsublist := (List.filter_sublist (p := fun x => x.2.isLink)
    (l := (Shape.ofStrings order reading strings).edges)).map fun x => x.2.label.length
  refine Nat.le_trans (Nat.le_of_eq ?_) (hsublist.sum_le_sum fun _ _ => Nat.zero_le _)
  congr 1
  apply List.map_congr_left
  intro x _
  exact Shape.length_read reading x.2.label

/-- Strings of at least one byte take at most twice their bytes when each ends in one more. -/
theorem sum_succ_le : ∀ {strings : List (List UInt8 × Weight)}, (∀ x ∈ strings, 1 ≤ x.1.length) →
    ((strings.map (·.1)).map (·.length + 1)).sum ≤ 2 * bytesOf strings
  | [], _ => Nat.le_refl 0
  | x :: strings, h => by
      have ih := sum_succ_le fun y hy => h y (List.mem_cons_of_mem x hy)
      have hx := h x List.mem_cons_self
      simp only [bytesOf, List.map_cons, List.sum_cons] at ih ⊢
      omega

/-- Some strings fit the layout of a level. -/
theorem size_lt (order : SiblingOrder) (reading : Reading) {strings : List (List UInt8 × Weight)}
    (h : bytesOf strings < 2 ^ 30) :
    2 * (Shape.ofStrings order reading strings).nodes.length + 2 < 2 ^ 32 := by
  have hedges := Shape.length_edges_le order reading strings
  rw [(Shape.ofStrings_sound order reading strings).length_nodes]
  rw [bytesOf] at h
  omega

/-- Positions in the tail of the labels resolve to the labels. -/
theorem resolved_of_tail {tail : Tail} {positions : List Nat} {s : Shape}
    (hbytes : bytesOf (labelsOf reading s) < 2 ^ 30)
    (htail : ∀ (i : Nat) (string : List UInt8), ((labelsOf reading s).map (·.1))[i]? = some string →
      ∃ position, positions[i]? = some position ∧ tail.Holds position string
        ∧ position < (((labelsOf reading s).map (·.1)).map (·.length + 1)).sum) :
    Level.Resolved reading s positions (Resolves tail []) := by
  intro k label weight hlabel
  have hget : ((labelsOf reading s).map (·.1))[k]? = some (reading.read label) := by
    rw [List.getElem?_map, labelsOf_getElem? reading hlabel]
    rfl
  obtain ⟨position, hposition, hholds, hlt⟩ := htail k _ hget
  have htwice := sum_succ_le (labelsOf_pos reading s)
  refine ⟨position, hposition, ?_, resolves_tail hholds⟩
  rw [Slot.targetLimit]
  omega

/-- A label ends at a node of the next level that is not the root and has a number for a target. -/
theorem exists_end_of_label (order : SiblingOrder) {s : Shape}
    (hbytes : bytesOf (labelsOf reading s) < 2 ^ 30) {k : Nat} {label : List UInt8}
    {weight : Weight} (hlabel : s.linkLabels[k]? = some (label, weight)) :
    ∃ v, (Shape.ofStrings order .backward (labelsOf reading s)).ends[k]? = some v
      ∧ v < Slot.targetLimit ∧ v ≠ 0
      ∧ (Shape.ofStrings order .backward (labelsOf reading s)).Spells v
        (reading.read label).reverse := by
  obtain ⟨v, hend, hspells⟩ :=
    Shape.ends_getElem? order .backward (labelsOf_getElem? reading hlabel)
  refine ⟨v, hend, ?_, ?_, hspells⟩
  · have hlt := (Shape.ofStrings_sound order .backward _).lt_length_of_spells hspells
    have hsize := size_lt order .backward hbytes
    rw [Slot.targetLimit]
    omega
  · rintro rfl
    have hnil := Level.eq_nil_of_spells_zero hspells
    have hlength := labelsOf_pos reading s _ (List.mem_of_getElem? (labelsOf_getElem? reading hlabel))
    rw [List.reverse_eq_nil_iff.mp hnil] at hlength
    exact Nat.not_succ_le_zero 0 hlength

/-- The nodes of the next level where the labels end resolve to the labels. -/
theorem resolved_of_below {s : Shape} {below : Cascade} {tail : Tail}
    (hbytes : bytesOf (labelsOf reading s) < 2 ^ 30)
    (hlays : below.top.Lays .backward (Shape.ofStrings config.order .backward (labelsOf reading s))
      (Resolves below.top.tail below.deeper)) :
    Level.Resolved reading s (Shape.ofStrings config.order .backward (labelsOf reading s)).ends
      (Resolves tail below.levels) := by
  intro k label weight hlabel
  obtain ⟨v, hend, hlt, hv, hspells⟩ := exists_end_of_label config.order hbytes hlabel
  have hresolves := resolves_level hlays tail hspells hv
  change Resolves tail below.levels v (reading.read label).reverse.reverse at hresolves
  rw [List.reverse_reverse] at hresolves
  exact ⟨v, hend, hlt, hresolves⟩

/-- A level laid out on the tree of some strings tells it, if its targets stand for the labels. -/
theorem lays_of_resolved {order : SiblingOrder} {targets : List Nat} {tail : Tail} {config : Config}
    {deeper : List Level} (hbytes : bytesOf strings < 2 ^ 30)
    (h : Level.Resolved reading (Shape.ofStrings order reading strings) targets
      (Resolves tail deeper)) :
    (Level.ofShape reading (Shape.ofStrings order reading strings) targets tail config).Lays reading
        (Shape.ofStrings order reading strings) (Resolves tail deeper)
      ∧ (reading = .forward →
        (Level.ofShape reading (Shape.ofStrings order reading strings) targets tail config).Tops
          (Shape.ofStrings order reading strings)) := by
  have hsound := Shape.ofStrings_sound order reading strings
  have hsize := size_lt order reading hbytes
  refine ⟨Level.lays_ofShape hsound hsize h, ?_⟩
  rintro rfl
  exact Level.tops_ofShape hsound hsize

theorem resolved_of_no_labels {s : Shape} (h : (labelsOf reading s).isEmpty = true)
    (resolves : Nat → List UInt8 → Prop) : Level.Resolved reading s [] resolves := by
  intro k label weight hlabel
  have hget := labelsOf_getElem? reading hlabel
  rw [List.isEmpty_iff.mp h] at hget
  cases hget

/-! ## One level at a time -/

/-- Some strings fit the bits that spell their tree. -/
theorem length_loudsBits_lt (order : SiblingOrder) (reading : Reading)
    {strings : List (List UInt8 × Weight)} (h : bytesOf strings < 2 ^ 30) :
    (Shape.ofStrings order reading strings).loudsBits.length < UInt32.size := by
  rw [Shape.length_loudsBits (Shape.ofStrings_sound order reading strings)]
  exact size_lt order reading h

/-- A level of some strings is not too large to flag its nodes. -/
theorem checked_ofShape (order : SiblingOrder) (reading : Reading)
    {strings : List (List UInt8 × Weight)} (h : bytesOf strings < 2 ^ 30) (targets : List Nat)
    (tail : Tail) (recorded : Config) (deeper : List Level) :
    checked (.ofShape reading (Shape.ofStrings order reading strings) targets tail recorded) deeper
      = .ok ⟨.ofShape reading (Shape.ofStrings order reading strings) targets tail recorded,
        deeper⟩ := by
  have hsound := Shape.ofStrings_sound order reading strings
  have hsize := size_lt order reading h
  have hlinks : (Level.ofShape reading (Shape.ofStrings order reading strings) targets tail
      recorded).links.size < UInt32.size := by
    rw [Level.size_links_ofShape hsound, UInt32.size]
    omega
  have hterminals : (Level.ofShape reading (Shape.ofStrings order reading strings) targets tail
      recorded).terminals.size < UInt32.size := by
    cases reading with
    | forward =>
      show (Shape.ofStrings order .forward strings).terminalBits.length < UInt32.size
      rw [Level.length_terminalBits, UInt32.size]
      omega
    | backward => exact Nat.two_pow_pos 32
  rw [checked, BitVector.checkSize_of_lt hlinks, BitVector.checkSize_of_lt hterminals]
  rfl

theorem build_no_labels {more : Nat} (hbytes : bytesOf strings < 2 ^ 30)
    (h : (labelsOf reading (Shape.ofStrings config.order reading strings)).isEmpty = true) :
    build config more reading strings = .ok
      (⟨.ofShape reading (Shape.ofStrings config.order reading strings) [] .empty
          (recordedConfig config .empty none), []⟩,
        (Shape.ofStrings config.order reading strings).ends) := by
  have hlouds := BitVector.checkSize_of_lt (length_loudsBits_lt config.order reading hbytes)
  have hchecked := checked_ofShape config.order reading hbytes []
  rw [labelsOf] at h
  cases more with
  | zero =>
    rw [build, hlouds]
    refine (if_pos h).trans ?_
    rw [hchecked]
    rfl
  | succ more =>
    rw [build, hlouds]
    refine (if_pos h).trans ?_
    rw [hchecked]
    rfl

/-- On the last level the labels go to the tail. -/
theorem build_tail {tail : Tail} {positions : List Nat} (hbytes : bytesOf strings < 2 ^ 30)
    (h : ¬(labelsOf reading (Shape.ofStrings config.order reading strings)).isEmpty = true)
    (htail : Tail.ofStrings config.tail
      ((labelsOf reading (Shape.ofStrings config.order reading strings)).map (·.1))
        = .ok (tail, positions)) :
    build config 0 reading strings = .ok
      (⟨.ofShape reading (Shape.ofStrings config.order reading strings) positions tail
          (recordedConfig config tail none), []⟩,
        (Shape.ofStrings config.order reading strings).ends) := by
  have hlouds := BitVector.checkSize_of_lt (length_loudsBits_lt config.order reading hbytes)
  have hchecked := checked_ofShape config.order reading hbytes positions tail
  rw [labelsOf] at h htail
  rw [build, hlouds]
  refine (if_neg h).trans ?_
  rw [htail]
  show (do _ ← checked _ []; _) = _
  rw [hchecked]
  rfl

/-- On any other level the labels go to the level below. -/
theorem build_below {more : Nat} {below : Cascade} {targets : List Nat}
    (hbytes : bytesOf strings < 2 ^ 30)
    (h : ¬(labelsOf reading (Shape.ofStrings config.order reading strings)).isEmpty = true)
    (hbelow : build config more .backward
      (labelsOf reading (Shape.ofStrings config.order reading strings)) = .ok (below, targets)) :
    build config (more + 1) reading strings = .ok
      (⟨.ofShape reading (Shape.ofStrings config.order reading strings) targets .empty
          (recordedConfig config .empty (some below.top)), below.levels⟩,
        (Shape.ofStrings config.order reading strings).ends) := by
  have hlouds := BitVector.checkSize_of_lt (length_loudsBits_lt config.order reading hbytes)
  have hchecked := checked_ofShape config.order reading hbytes targets .empty
  rw [labelsOf] at h hbelow
  rw [build, hlouds]
  refine (if_neg h).trans ?_
  rw [hbelow]
  show (do _ ← checked _ below.levels; _) = _
  rw [hchecked]
  rfl

/-- The labels of a level have room in a tail. -/
theorem room_of_labels (order : SiblingOrder) (reading : Reading)
    {strings : List (List UInt8 × Weight)} (h : bytesOf strings < 2 ^ 30) (mode : TailMode) :
    (Tail.filled mode
      ((labelsOf reading (Shape.ofStrings order reading strings)).map (·.1))).used
        < UInt32.size := by
  have hused := Tail.used_filled_le mode
    ((labelsOf reading (Shape.ofStrings order reading strings)).map (·.1))
  have htwice := sum_succ_le (labelsOf_pos reading (Shape.ofStrings order reading strings))
  have hlabels := bytesOf_labelsOf_le order reading strings
  rw [UInt32.size]
  omega

/-- The number of bytes of the labels is bounded like that of the strings. -/
theorem bytesOf_labelsOf_lt (order : SiblingOrder) (reading : Reading)
    {strings : List (List UInt8 × Weight)} (h : bytesOf strings < 2 ^ 30) :
    bytesOf (labelsOf reading (Shape.ofStrings order reading strings)) < 2 ^ 30 :=
  Nat.lt_of_le_of_lt (bytesOf_labelsOf_le order reading strings) h

/-- Building succeeds and names the node of every string; what holds of a level without labels and
of a level with a tail, and comes up from the level below, holds of every cascade that is built. -/
theorem build_induction (config : Config)
    {motive : Nat → Reading → List (List UInt8 × Weight) → Cascade → Prop}
    (alone : ∀ {more : Nat} {reading : Reading} {strings : List (List UInt8 × Weight)},
      bytesOf strings < 2 ^ 30 →
      (labelsOf reading (Shape.ofStrings config.order reading strings)).isEmpty = true →
      motive more reading strings
        ⟨.ofShape reading (Shape.ofStrings config.order reading strings) [] .empty
          (recordedConfig config .empty none), []⟩)
    (last : ∀ {reading : Reading} {strings : List (List UInt8 × Weight)} {tail : Tail}
        {positions : List Nat},
      bytesOf strings < 2 ^ 30 →
      ¬(labelsOf reading (Shape.ofStrings config.order reading strings)).isEmpty = true →
      Tail.ofStrings config.tail
        ((labelsOf reading (Shape.ofStrings config.order reading strings)).map (·.1))
          = .ok (tail, positions) →
      motive 0 reading strings
        ⟨.ofShape reading (Shape.ofStrings config.order reading strings) positions tail
          (recordedConfig config tail none), []⟩)
    (above : ∀ {more : Nat} {reading : Reading} {strings : List (List UInt8 × Weight)}
        {below : Cascade},
      bytesOf strings < 2 ^ 30 →
      ¬(labelsOf reading (Shape.ofStrings config.order reading strings)).isEmpty = true →
      motive more .backward (labelsOf reading (Shape.ofStrings config.order reading strings)) below →
      motive (more + 1) reading strings
        ⟨.ofShape reading (Shape.ofStrings config.order reading strings)
          (Shape.ofStrings config.order .backward
            (labelsOf reading (Shape.ofStrings config.order reading strings))).ends
          .empty (recordedConfig config .empty (some below.top)), below.levels⟩) :
    ∀ (more : Nat) (reading : Reading) (strings : List (List UInt8 × Weight)),
      bytesOf strings < 2 ^ 30 → ∃ c, build config more reading strings
        = .ok (c, (Shape.ofStrings config.order reading strings).ends)
      ∧ motive more reading strings c := by
  intro more
  induction more with
  | zero =>
    intro reading strings hbytes
    by_cases hempty : (labelsOf reading (Shape.ofStrings config.order reading strings)).isEmpty
    · exact ⟨_, build_no_labels hbytes hempty, alone hbytes hempty⟩
    · obtain ⟨tail, positions, htail, _⟩ := Tail.ofStrings_spec config.tail
        (labels_ne_nil reading _) (room_of_labels config.order reading hbytes _)
      exact ⟨_, build_tail hbytes hempty htail, last hbytes hempty htail⟩
  | succ more ih =>
    intro reading strings hbytes
    by_cases hempty : (labelsOf reading (Shape.ofStrings config.order reading strings)).isEmpty
    · exact ⟨_, build_no_labels hbytes hempty, alone hbytes hempty⟩
    · obtain ⟨below, hbelow, hmotive⟩ :=
        ih .backward _ (bytesOf_labelsOf_lt config.order reading hbytes)
      exact ⟨_, build_below hbytes hempty hbelow, above hbytes hempty hmotive⟩

/-- The positions in the tail of a last level stand for its labels. -/
theorem resolved_of_last {tail : Tail} {positions : List Nat} (hbytes : bytesOf strings < 2 ^ 30)
    (htail : Tail.ofStrings config.tail
      ((labelsOf reading (Shape.ofStrings config.order reading strings)).map (·.1))
        = .ok (tail, positions)) :
    Level.Resolved reading (Shape.ofStrings config.order reading strings) positions
      (Resolves tail []) := by
  obtain ⟨tail', positions', htail', hpositions⟩ := Tail.ofStrings_spec config.tail
    (labels_ne_nil reading _) (room_of_labels config.order reading hbytes _)
  rw [htail] at htail'
  obtain ⟨rfl, rfl⟩ := Prod.mk.inj (Except.ok.inj htail')
  exact resolved_of_tail (bytesOf_labelsOf_lt config.order reading hbytes) hpositions

/-- What two inductions show of the result of building holds of one result. -/
theorem build_and {more : Nat} {ends : List Nat} {first second : Cascade → Prop}
    (h : ∃ c, build config more reading strings = .ok (c, ends) ∧ first c)
    (h' : ∃ c, build config more reading strings = .ok (c, ends) ∧ second c) :
    ∃ c, build config more reading strings = .ok (c, ends) ∧ first c ∧ second c := by
  obtain ⟨c, hbuild, hfirst⟩ := h
  obtain ⟨c', hbuild', hsecond⟩ := h'
  rw [hbuild] at hbuild'
  obtain ⟨rfl, _⟩ := Prod.mk.inj (Except.ok.inj hbuild')
  exact ⟨c, hbuild, hfirst, hsecond⟩

/-- Building succeeds, names the node of every string, and the top level tells the tree of the
strings, its links standing for their labels. -/
theorem build_spec (config : Config) (more : Nat) (reading : Reading)
    (strings : List (List UInt8 × Weight)) (hbytes : bytesOf strings < 2 ^ 30) :
    ∃ c, build config more reading strings
        = .ok (c, (Shape.ofStrings config.order reading strings).ends)
      ∧ c.top.Lays reading (Shape.ofStrings config.order reading strings)
          (Resolves c.top.tail c.deeper)
      ∧ (reading = .forward → c.top.Tops (Shape.ofStrings config.order reading strings)) := by
  refine build_induction config (motive := fun _ reading strings c =>
    c.top.Lays reading (Shape.ofStrings config.order reading strings)
        (Resolves c.top.tail c.deeper)
      ∧ (reading = .forward → c.top.Tops (Shape.ofStrings config.order reading strings)))
    ?alone ?last ?above more reading strings hbytes
  case alone =>
    intro more reading strings hbytes hempty
    exact lays_of_resolved hbytes (resolved_of_no_labels hempty _)
  case last =>
    intro reading strings tail positions hbytes _ htail
    exact lays_of_resolved hbytes (resolved_of_last hbytes htail)
  case above =>
    rintro more reading strings below hbytes _ ⟨hlays, _⟩
    have hlabels := bytesOf_labelsOf_lt config.order reading hbytes
    exact lays_of_resolved hbytes (resolved_of_below hlabels hlays)

end Lexicon.Cascade
