/-
Lexicon.Proofs.Cascade.Levels — every level that is built stands for the labels handed down to it.

The first level reads the keys, and each other level reads, backward, the labels of the
links of the level before it (`Cascade.stringsAt`). What holds of every level laid out on the tree
of its strings, with targets that stand for their labels in the levels below, holds of each of the
levels that are built: this is `build_each`, by the induction on building, and `Each.at_split` finds
any one level in the row. `Cascade.Laid` is the case that most results need, that each level is laid
out and that its links lead to their labels. What the links are restored to are the strings of the
next level (`StandsOn.mem_labelsOf_iff`).
-/
import Lexicon.Proofs.Cascade.Building

namespace Lexicon.Cascade

/-- The direction in which the level with the given number reads. -/
def readingAt : Nat → Reading
  | 0 => .forward
  | _ + 1 => .backward

/-- The strings of the level with the given number: the given ones, or the labels of the links of
the level before it. -/
def stringsAt (order : SiblingOrder) (strings : List (List UInt8 × Weight)) :
    Nat → List (List UInt8 × Weight)
  | 0 => strings
  | i + 1 => labelsOf (readingAt i) (.ofStrings order (readingAt i) (stringsAt order strings i))

/-- The tree of the level with the given number. -/
def shapeAt (order : SiblingOrder) (strings : List (List UInt8 × Weight)) (i : Nat) : Shape :=
  .ofStrings order (readingAt i) (stringsAt order strings i)

/-- A level is laid out on a tree, and its links stand for their labels in the levels below it. -/
structure StandsOn (reading : Reading) (s : Shape) (level : Level) (deeper : List Level) : Prop where
  laid : ∃ targets, level = .ofShape reading s targets level.tail level.config
  lays : level.Lays reading s (Resolves level.tail deeper)

/-- Each of a row of levels stands for its strings, the first for the given ones and each other one
for the labels of the one before it. -/
def Laid (order : SiblingOrder) : Reading → List (List UInt8 × Weight) → List Level → Prop
  | _, _, [] => True
  | reading, strings, level :: deeper =>
    StandsOn reading (.ofStrings order reading strings) level deeper
      ∧ Laid order .backward (labelsOf reading (.ofStrings order reading strings)) deeper

/-- Each of a row of levels has a property, together with the tree of its strings and the levels
below it; the first is made from the given strings and each other one from the labels of the one
before it. -/
def Each (order : SiblingOrder) (wanted : Reading → Shape → Level → List Level → Prop) :
    Reading → List (List UInt8 × Weight) → List Level → Prop
  | _, _, [] => True
  | reading, strings, level :: deeper =>
    wanted reading (.ofStrings order reading strings) level deeper
      ∧ Each order wanted .backward (labelsOf reading (.ofStrings order reading strings)) deeper

variable {order : SiblingOrder} {reading : Reading} {strings : List (List UInt8 × Weight)}
  {wanted : Reading → Shape → Level → List Level → Prop}

/-- What holds of every laid-out level whose targets stand for their labels holds of each level that
is built. -/
theorem build_each (config : Config)
    (hwanted : ∀ {reading : Reading} {strings : List (List UInt8 × Weight)} {targets : List Nat}
        {tail : Tail} {recorded : Config} {deeper : List Level},
      bytesOf strings < 2 ^ 30 →
      Level.Resolved reading (.ofStrings config.order reading strings) targets
        (Resolves tail deeper) →
      wanted reading (.ofStrings config.order reading strings)
        (.ofShape reading (.ofStrings config.order reading strings) targets tail recorded) deeper)
    (more : Nat) (reading : Reading) (strings : List (List UInt8 × Weight))
    (hbytes : bytesOf strings < 2 ^ 30) :
    ∃ c, build config more reading strings
        = .ok (c, (Shape.ofStrings config.order reading strings).ends)
      ∧ Each config.order wanted reading strings c.levels := by
  -- The level below must be known to be laid out, for its nodes are the targets of this one.
  have hboth : ∃ c, build config more reading strings
        = .ok (c, (Shape.ofStrings config.order reading strings).ends)
      ∧ c.top.Lays reading (Shape.ofStrings config.order reading strings)
          (Resolves c.top.tail c.deeper)
      ∧ Each config.order wanted reading strings c.levels := by
    refine build_induction config (motive := fun _ reading strings c =>
      c.top.Lays reading (Shape.ofStrings config.order reading strings)
          (Resolves c.top.tail c.deeper)
        ∧ Each config.order wanted reading strings c.levels)
      ?alone ?last ?above more reading strings hbytes
    case alone =>
      intro more reading strings hbytes hempty
      have hresolved := resolved_of_no_labels hempty (Resolves .empty [])
      exact ⟨(lays_of_resolved hbytes hresolved).1, hwanted hbytes hresolved, trivial⟩
    case last =>
      intro reading strings tail positions hbytes _ htail
      have hresolved := resolved_of_last hbytes htail
      exact ⟨(lays_of_resolved hbytes hresolved).1, hwanted hbytes hresolved, trivial⟩
    case above =>
      rintro more reading strings below hbytes _ ⟨hlays, hbelow⟩
      have hlabels := bytesOf_labelsOf_lt config.order reading hbytes
      have hresolved : Level.Resolved reading (.ofStrings config.order reading strings) _
          (Resolves .empty below.levels) := resolved_of_below hlabels hlays
      exact ⟨(lays_of_resolved hbytes hresolved).1, hwanted hbytes hresolved, hbelow⟩
  obtain ⟨c, hbuild, _, heach⟩ := hboth
  exact ⟨c, hbuild, heach⟩

/-- A level with so many before it has the property with the tree of its number. -/
theorem Each.at_index {above deeper : List Level} {level : Level} : ∀ {i : Nat},
    Each order wanted (readingAt i) (stringsAt order strings i) (above ++ level :: deeper) →
    wanted (readingAt (i + above.length)) (shapeAt order strings (i + above.length)) level
      deeper := by
  induction above with
  | nil =>
    intro i h
    exact h.1
  | cons _ above ih =>
    intro i h
    have hnext : Each order wanted (readingAt (i + 1)) (stringsAt order strings (i + 1))
        (above ++ level :: deeper) := h.2
    have hat := ih hnext
    rwa [Nat.add_assoc, Nat.add_comm 1] at hat

/-- Each of the levels of some strings has the property with the tree of its number. -/
theorem Each.at_split {above deeper : List Level} {level : Level}
    (h : Each order wanted .forward strings (above ++ level :: deeper)) :
    wanted (readingAt above.length) (shapeAt order strings above.length) level deeper := by
  have hat := at_index (i := 0) h
  rwa [Nat.zero_add] at hat

/-! ## What every level stands for -/

theorem standsOn_ofShape {targets : List Nat} {tail : Tail} {config : Config} {deeper : List Level}
    (hbytes : bytesOf strings < 2 ^ 30)
    (h : Level.Resolved reading (.ofStrings order reading strings) targets (Resolves tail deeper)) :
    StandsOn reading (.ofStrings order reading strings)
      (.ofShape reading (.ofStrings order reading strings) targets tail config) deeper where
  laid := ⟨targets, rfl⟩
  lays := (lays_of_resolved hbytes h).1

theorem laid_iff_each : ∀ {reading : Reading} {strings : List (List UInt8 × Weight)}
    {levels : List Level}, Laid order reading strings levels ↔ Each order StandsOn reading strings levels
  | _, _, [] => Iff.rfl
  | _, _, _ :: _ => and_congr_right fun _ => laid_iff_each

/-- All levels that are built stand for their strings. -/
theorem build_laid (config : Config) (more : Nat) (reading : Reading)
    (strings : List (List UInt8 × Weight)) (hbytes : bytesOf strings < 2 ^ 30) :
    ∃ c, build config more reading strings
        = .ok (c, (Shape.ofStrings config.order reading strings).ends)
      ∧ Laid config.order reading strings c.levels := by
  obtain ⟨c, hbuild, heach⟩ := build_each config standsOn_ofShape more reading strings hbytes
  exact ⟨c, hbuild, laid_iff_each.mpr heach⟩

/-- A level with so many before it stands for the strings of its number. -/
theorem Laid.at_index {above deeper : List Level} {level : Level} {i : Nat}
    (h : Laid order (readingAt i) (stringsAt order strings i) (above ++ level :: deeper)) :
    StandsOn (readingAt (i + above.length)) (shapeAt order strings (i + above.length)) level
      deeper :=
  (laid_iff_each.mp h).at_index

/-- Each of the levels of some strings stands for the strings of its number. -/
theorem Laid.standsOn {above deeper : List Level} {level : Level}
    (h : Laid order .forward strings (above ++ level :: deeper)) :
    StandsOn (readingAt above.length) (shapeAt order strings above.length) level deeper :=
  (laid_iff_each.mp h).at_split

/-- What is marked as a link is the edge of a label of two bytes or more, and is read as a target
that stands for the label. -/
theorem StandsOn.resolves {s : Shape} {level : Level} {deeper : List Level}
    (h : StandsOn reading s level deeper) {v : Nat} (hv : level.links.get? v = some true) :
    ∃ u e target, s.Enters u e v ∧ 2 ≤ e.label.length ∧ level.piece? v = some (.link target)
      ∧ Resolves level.tail deeper target (reading.read e.label) := by
  obtain ⟨targets, hlaid⟩ := h.laid
  rw [hlaid] at hv
  obtain ⟨u, e, he, hlink⟩ := Level.exists_enters_of_links hv
  obtain ⟨target, htarget, hresolves⟩ := h.lays.piece?_of_link he hlink
  exact ⟨u, e, target, he, of_decide_eq_true hlink, htarget, hresolves⟩

/-- What the links of a level are restored to are the strings that the level hands on. -/
theorem StandsOn.mem_labelsOf_iff {s : Shape} {level : Level} {deeper : List Level}
    (h : StandsOn reading s level deeper) {label : List UInt8} :
    label ∈ (labelsOf reading s).map (·.1) ↔ ∃ v target, level.piece? v = some (.link target)
      ∧ restoreTarget? level.tail deeper target = some label := by
  constructor
  · intro hlabel
    obtain ⟨x, hx, rfl⟩ := List.mem_map.mp hlabel
    obtain ⟨⟨spelled, weight⟩, hspelled, rfl⟩ := List.mem_map.mp hx
    obtain ⟨⟨u, e⟩, he, heq⟩ := List.mem_map.mp hspelled
    obtain ⟨rfl, rfl⟩ := Prod.mk.inj heq
    obtain ⟨hedge, hlink⟩ := List.mem_filter.mp he
    obtain ⟨i, hi⟩ := List.mem_iff_getElem?.mp hedge
    obtain ⟨target, htarget, hresolves⟩ := h.lays.piece?_of_link ⟨i, rfl, hi⟩ hlink
    exact ⟨i + 1, target, htarget, hresolves.restore⟩
  · rintro ⟨v, target, hpiece, hrestore⟩
    obtain ⟨u, e, target', he, hlength, hpiece', hresolves⟩ :=
      h.resolves (Level.links_of_piece? hpiece)
    rw [hpiece] at hpiece'
    obtain rfl := Piece.link.inj (Option.some.inj hpiece')
    obtain rfl := Option.some.inj (hrestore.symm.trans hresolves.restore)
    have hlabel := Level.linkLabels_getElem? he (decide_eq_true hlength)
    exact List.mem_map_of_mem (List.mem_of_getElem? (labelsOf_getElem? reading hlabel))

end Lexicon.Cascade
