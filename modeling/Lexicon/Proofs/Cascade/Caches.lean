/-
Lexicon.Proofs.Cascade.Caches — at every level each cache slot keeps the heaviest edge.

The weights of a level are sums of those of the level before it, and these are exact as long as
every sum stays below 2^24. Two sums of the keys bound all of them: that of the weights, for the
first level, and that of each weight times the bytes of its key, for all levels below. For every
label is made from bytes of the strings that take it, so the labels, each as heavy as its edge, have
together no more of this second sum than the strings (`ExactSums.labelsOf`), and each label has two
bytes at least, so they weigh less than that. By induction on the levels (`exactSums_stringsAt`)
each edge weighs exactly what the strings below it do (`ExactSums.weight_of_enters`), and what a
slot keeps of such edges is the matter of one level (`Level.keepsHeaviest_ofShape`).
-/
import Lexicon.Proofs.Cascade.Depth
import Lexicon.Proofs.Level.Heaviest
import Lexicon.Proofs.Shape.Pooling

namespace Lexicon

/-- The number of different strings does not depend on the direction in which they are read. -/
theorem Shape.distinct_ofStrings (order : SiblingOrder) (reading : Reading)
    (strings : List (List UInt8 × Weight)) :
    (ofStrings order reading strings).distinct = (strings.map Prod.fst).toFinset.card := by
  have hperm := (reaching_sortedOf reading strings).map Prod.fst
  rw [filter_nil_front, List.map_map] at hperm
  have hset : ((sortedOf reading strings).map (·.rest)).toFinset
      = ((strings.map Prod.fst).toFinset).image reading.read := by
    ext rest
    rw [List.mem_toFinset, Finset.mem_image]
    refine hperm.mem_iff.trans ?_
    simp [readBy]
  calc (ofStrings order reading strings).distinct
      = ((sortedOf reading strings).map (·.rest)).toFinset.card := distinct_sortedOf reading strings
    _ = (strings.map Prod.fst).toFinset.card := by
        rw [hset, Finset.card_image_of_injective _ (read_injective reading)]

theorem weightBelow_nil (strings : List (List UInt8 × Weight)) :
    weightBelow strings [] = (strings.map (·.2.toNat)).sum := by
  rw [weightBelow, filter_nil_front]

@[simp] theorem weightBelow_readBy_nil (reading : Reading)
    (strings : List (List UInt8 × Weight)) :
    weightBelow (readBy reading strings) [] = weightBelow strings [] := by
  rw [weightBelow_nil, weightBelow_nil, readBy, List.map_map]
  rfl

namespace Cascade

/-- All weights that are summed up while the levels of some strings are built are natural numbers
below 2^24. -/
structure ExactSums (strings : List (List UInt8 × Weight)) : Prop where
  natural : ∀ x ∈ strings, x.2.Natural
  weights_lt : weightBelow strings [] < 2 ^ 24
  bytes_lt : (strings.map fun x => x.2.toNat * x.1.length).sum < 2 ^ 24

variable {order : SiblingOrder} {reading : Reading} {strings : List (List UInt8 × Weight)}
  {u v : Nat} {w : List UInt8} {e : Edge}

/-- An edge weighs what its own strings do. -/
theorem ExactSums.weight_of_enters (h : ExactSums strings)
    (he : (Shape.ofStrings order reading strings).Enters u e v) :
    e.weight = .ofNat (load e.below) ∧ load e.below < 2 ^ 24 := by
  have hsound := Shape.ofStrings_sound order reading strings
  have hu := Nat.lt_trans (hsound.lt_of_enters he) (hsound.lt_length he)
  obtain ⟨w, hw⟩ := hsound.exists_spells hu
  obtain ⟨ps, hordered, hnode, hreaching⟩ := Shape.exists_reaching_read hw
  obtain ⟨j, hj, _⟩ := he.exists_edge hnode
  have hnatural : ∀ x ∈ readBy reading strings, x.2.Natural := by
    intro x hx
    obtain ⟨y, hy, rfl⟩ := List.mem_map.mp hx
    exact h.natural y hy
  have hload : load ps < 2 ^ 24 := by
    rw [hreaching.load_eq]
    refine Nat.lt_of_le_of_lt (weightBelow_le _ w) ?_
    rw [weightBelow_readBy_nil]
    exact h.weights_lt
  exact weight_of_edge (hreaching.natural hnatural) hload (List.mem_of_getElem? hj)

theorem ExactSums.weighed (h : ExactSums strings) :
    Level.Weighed (Shape.ofStrings order reading strings) := by
  intro u v e he
  obtain ⟨hweight, hlt⟩ := h.weight_of_enters he
  exact ⟨_, hlt, hweight⟩

theorem ExactSums.toNat_of_enters (h : ExactSums strings)
    (he : (Shape.ofStrings order reading strings).Enters u e v) :
    e.weight.toNat = load e.below := by
  obtain ⟨hweight, hlt⟩ := h.weight_of_enters he
  rw [hweight, Weight.toNat_ofNat hlt]

/-- An edge weighs what all strings that are read with its node's word first do. -/
theorem ExactSums.weight_of_spells (h : ExactSums strings)
    (he : (Shape.ofStrings order reading strings).Enters u e v)
    (hv : (Shape.ofStrings order reading strings).Spells v w) :
    e.weight.Natural ∧ e.weight.toNat = weightBelow (readBy reading strings) w := by
  obtain ⟨hweight, hlt⟩ := h.weight_of_enters he
  have hload : load e.below = weightBelow (readBy reading strings) w := by
    cases hv with
    | root => exact absurd he.pos (Nat.lt_irrefl 0)
    | down hu he' =>
      obtain ⟨rfl, rfl⟩ := he.unique he'
      obtain ⟨ps, hordered, hnode, hreaching⟩ := Shape.exists_reaching_read hu
      obtain ⟨j, hj, _⟩ := he.exists_edge hnode
      exact (hreaching.below hordered (List.mem_of_getElem? hj)).load_eq
  rw [← hload, ← h.toNat_of_enters he]
  exact ⟨hweight ▸ Weight.natural_ofNat hlt, rfl⟩

/-! ## The strings of the levels -/

/-- A label that is handed on weighs as much as its edge. -/
theorem labelsOf_eq_map (reading : Reading) (s : Shape) :
    labelsOf reading s
      = (s.edges.filter (·.2.isLink)).map fun x => (reading.read x.2.label, x.2.weight) := by
  rw [labelsOf, Shape.linkLabels, List.map_map]
  rfl

/-- The labels, each as heavy as its edge, come to no more than the strings. -/
theorem ExactSums.sum_labelsOf_le (h : ExactSums strings) (order : SiblingOrder)
    (reading : Reading) :
    ((labelsOf reading (.ofStrings order reading strings)).map
        fun x => x.2.toNat * x.1.length).sum
      ≤ (strings.map fun x => x.2.toNat * x.1.length).sum := by
  rw [← Shape.sum_tally_labels Weight.toNat order reading strings]
  have hedges : (labelsOf reading (.ofStrings order reading strings)).map
      (fun x => x.2.toNat * x.1.length)
        = ((Shape.ofStrings order reading strings).edges.filter (·.2.isLink)).map
          fun x => tally Weight.toNat x.2.below * x.2.label.length := by
    rw [labelsOf_eq_map, List.map_map]
    apply List.map_congr_left
    rintro ⟨u, e⟩ hx
    obtain ⟨i, hi⟩ := List.mem_iff_getElem?.mp (List.mem_of_mem_filter hx)
    have he : (Shape.ofStrings order reading strings).Enters u e (i + 1) := ⟨i, rfl, hi⟩
    show e.weight.toNat * (reading.read e.label).length = load e.below * e.label.length
    rw [h.toNat_of_enters he, Shape.length_read]
  rw [hedges]
  exact (List.filter_sublist.map _).sum_le_sum fun _ _ => Nat.zero_le _

/-- What is handed on is summed up exactly again. -/
theorem ExactSums.labelsOf (h : ExactSums strings) (order : SiblingOrder) (reading : Reading) :
    ExactSums (labelsOf reading (.ofStrings order reading strings)) where
  natural := by
    intro x hx
    rw [labelsOf_eq_map] at hx
    obtain ⟨⟨u, e⟩, hedge, rfl⟩ := List.mem_map.mp hx
    obtain ⟨i, hi⟩ := List.mem_iff_getElem?.mp (List.mem_of_mem_filter hedge)
    have he : (Shape.ofStrings order reading strings).Enters u e (i + 1) := ⟨i, rfl, hi⟩
    obtain ⟨hweight, hlt⟩ := h.weight_of_enters he
    show e.weight.Natural
    rw [hweight]
    exact Weight.natural_ofNat hlt
  weights_lt := by
    rw [weightBelow_nil]
    refine Nat.lt_of_le_of_lt ?_ h.bytes_lt
    refine Nat.le_trans (List.sum_le_sum fun x hx => ?_) (h.sum_labelsOf_le order reading)
    exact Nat.le_mul_of_pos_right _ (labelsOf_pos reading _ x hx)
  bytes_lt := Nat.lt_of_le_of_lt (h.sum_labelsOf_le order reading) h.bytes_lt

/-- The strings of every level are summed up exactly if the keys are. -/
theorem exactSums_stringsAt (h : ExactSums strings) : ∀ i, ExactSums (stringsAt order strings i)
  | 0 => h
  | i + 1 => (exactSums_stringsAt h i).labelsOf order (readingAt i)

/-- One sum of the keys bounds both: each weight once for every byte of its key and once more. -/
theorem exactSums_of_sum_lt (hnatural : ∀ x ∈ strings, x.2.Natural)
    (hsum : (strings.map fun x => x.2.toNat * (x.1.length + 1)).sum < 2 ^ 24) :
    ExactSums strings where
  natural := hnatural
  weights_lt := by
    rw [weightBelow_nil]
    refine Nat.lt_of_le_of_lt (List.sum_le_sum fun x _ => ?_) hsum
    exact Nat.le_mul_of_pos_right _ (Nat.succ_pos _)
  bytes_lt := by
    refine Nat.lt_of_le_of_lt (List.sum_le_sum fun x _ => ?_) hsum
    exact Nat.mul_le_mul_left _ (Nat.le_succ _)

/-! ## The caches -/

/-- The number of slots is the least power of two that is no less than the base size of the level
and than the number of its different strings over the divisor. -/
theorem StandsOn.isLeast_size_cache {level : Level} {deeper : List Level} {i : Nat}
    (h : StandsOn (readingAt i) (shapeAt order strings i) level deeper) :
    IsLeast {n | (∃ k, n = 2 ^ k) ∧ (if i = 0 then 256 else 1) ≤ n
        ∧ ((stringsAt order strings i).map Prod.fst).toFinset.card / level.config.cache.divisor ≤ n}
      level.cache.size := by
  obtain ⟨targets, hlaid⟩ := h.laid
  have hsize : level.cache.size = Level.slotCount (readingAt i) level.config.cache
      ((stringsAt order strings i).map Prod.fst).toFinset.card := by
    rw [hlaid, Level.size_cache_ofShape, shapeAt, Shape.distinct_ofStrings]
    rfl
  rw [hsize]
  cases i with
  | zero => exact Cache.isLeast_doubled 8 _
  | succ i => exact Cache.isLeast_doubled 0 _

/-- Each slot of a level keeps the heaviest edge if all edges weigh exactly what they should. -/
theorem StandsOn.keepsHeaviest {level : Level} {deeper : List Level} {i k : Nat} {slot : Slot}
    (h : StandsOn (readingAt i) (shapeAt order strings i) level deeper)
    (hexact : ExactSums (stringsAt order strings i)) (hslot : level.cache[k]? = some slot) :
    Level.KeepsHeaviest (readingAt i) level.cache.size (shapeAt order strings i) k slot := by
  obtain ⟨targets, hlaid⟩ := h.laid
  have hedges : (shapeAt order strings i).edges.length + 1 < 2 ^ 32 := by
    rw [← h.lays.sound.length_nodes]
    have hsize := h.lays.size_lt
    omega
  rw [hlaid] at hslot ⊢
  exact Level.keepsHeaviest_ofShape hedges h.lays.sound hexact.weighed hslot

end Cascade

namespace Dictionary

/-- Each cache slot keeps the heaviest edge. If the keys have natural weights, and these, each times
the length of its key and one, add up to less than 2^24, then at every level the number of slots is
the least power of two that is no less than 256, below the first level than one, and than the number
of different strings of the level over the divisor. Every edge weighs what the strings of the level
that are read with its node's word first weigh together, and each label that is handed down weighs
as much as its edge. Each slot holds, of the edges that belong to it and weigh anything, the
heaviest, of equally heavy ones that into the first node, with what it spells; without such an edge
it is cleared. -/
theorem build_caches_heaviest {ks : Keyset} {config : Config} (hlimits : ks.WithinLimits)
    (hvalid : config.Valid) (hnatural : ∀ entry ∈ ks.entries.toList, entry.weight.Natural)
    (hsum : (ks.entries.toList.map fun entry =>
      entry.weight.toNat * (entry.bytes.length + 1)).sum < 2 ^ 24) :
    ∃ c ks', Dictionary.build ks config = .ok (⟨some c⟩, ks') ∧ ks.SameKeys ks'
      ∧ ∀ (above : List Level) (level : Level) (deeper : List Level),
        c.levels = above ++ level :: deeper →
        Cascade.StandsOn (Cascade.readingAt above.length)
          (Cascade.shapeAt config.order ks.strings above.length) level deeper
        ∧ IsLeast {n | (∃ k, n = 2 ^ k) ∧ (if above.length = 0 then 256 else 1) ≤ n
            ∧ ((Cascade.stringsAt config.order ks.strings above.length).map
              Prod.fst).toFinset.card / config.cache.divisor ≤ n}
          level.cache.size
        ∧ (∀ u e v w, (Cascade.shapeAt config.order ks.strings above.length).Enters u e v →
          (Cascade.shapeAt config.order ks.strings above.length).Spells v w →
          e.weight.Natural ∧ e.weight.toNat
            = weightBelow (readBy (Cascade.readingAt above.length)
              (Cascade.stringsAt config.order ks.strings above.length)) w)
        ∧ (Cascade.stringsAt config.order ks.strings (above.length + 1)
          = ((Cascade.shapeAt config.order ks.strings above.length).edges.filter (·.2.isLink)).map
            fun x => ((Cascade.readingAt above.length).read x.2.label, x.2.weight))
        ∧ ∀ k slot, level.cache[k]? = some slot →
          Level.KeepsHeaviest (Cascade.readingAt above.length) level.cache.size
            (Cascade.shapeAt config.order ks.strings above.length) k slot
          ∧ ∀ u e v, (Cascade.shapeAt config.order ks.strings above.length).Enters u e v →
            slot.child.toNat = v →
            slot.piece.Spells (Cascade.Resolves level.tail deeper)
              ((Cascade.readingAt above.length).read e.label) := by
  have hbytes := Keyset.bytesOf_strings_lt hlimits
  have hexact : Cascade.ExactSums ks.strings := by
    refine Cascade.exactSums_of_sum_lt ?_ ?_
    · intro x hx
      obtain ⟨entry, hentry, rfl⟩ := List.mem_map.mp hx
      exact hnatural entry hentry
    · rw [Keyset.strings, List.map_map]
      exact hsum
  obtain ⟨c, ks', hbuild, hsame, hstacked, hlaid⟩ := exists_build hvalid (Cascade.build_and
    (Cascade.build_stacked config (config.levels - 1) .forward ks.strings hbytes)
    (Cascade.build_laid config (config.levels - 1) .forward ks.strings hbytes))
  refine ⟨c, ks', hbuild, hsame, ?_⟩
  intro above level deeper hsplit
  rw [hsplit] at hlaid
  have hstands := hlaid.standsOn
  have hat : Cascade.ExactSums (Cascade.stringsAt config.order ks.strings above.length) :=
    Cascade.exactSums_stringsAt hexact above.length
  have hcache : level.config.cache = config.cache := by
    rw [(hstacked.at_split hsplit).1.config_eq]
  refine ⟨hstands, ?_, ?_, ?_, ?_⟩
  · rw [← hcache]
    exact hstands.isLeast_size_cache
  · intro u e v w he hv
    exact hat.weight_of_spells he hv
  · exact Cascade.labelsOf_eq_map _ _
  · intro k slot hslot
    refine ⟨hstands.keepsHeaviest hat hslot, ?_⟩
    intro u e v he hchild
    exact (hstands.lays.slot_of_child he hslot hchild).2

/-- The edge of `b` at the root and that of `C` below `a` belong to one slot. The second is heavier
than the first, so the slot is left to it although it is offered later. -/
theorem build_caches_heaviest_shared_slot : ∃ c ks' slot,
    Dictionary.build ⟨#[{ bytes := [97] }, { bytes := [97, 67], weight := ⟨0x40400000⟩ },
      { bytes := [98], weight := ⟨0x40000000⟩ }]⟩ {} = .ok (⟨some c⟩, ks')
      ∧ c.top.cache[98]? = some slot ∧ slot.parent = 1 ∧ slot.child = 3
      ∧ Level.KeepsHeaviest .forward c.top.cache.size (Cascade.shapeAt .weight (Keyset.strings
        ⟨#[{ bytes := [97] }, { bytes := [97, 67], weight := ⟨0x40400000⟩ },
          { bytes := [98], weight := ⟨0x40000000⟩ }]⟩) 0) 98 slot := by
  obtain ⟨c, ks', hbuild, _, hlevels⟩ := build_caches_heaviest
    (show Keyset.WithinLimits ⟨#[{ bytes := [97] }, { bytes := [97, 67], weight := ⟨0x40400000⟩ },
      { bytes := [98], weight := ⟨0x40000000⟩ }]⟩ by decide)
    (show ({} : Config).Valid by decide) (by decide +kernel) (by decide +kernel)
  have hslot : (match Dictionary.build ⟨#[{ bytes := [97] },
      { bytes := [97, 67], weight := ⟨0x40400000⟩ }, { bytes := [98], weight := ⟨0x40000000⟩ }]⟩ {}
      with
      | .ok (⟨some c⟩, _) => c.top.cache[98]?.map fun slot => (slot.parent, slot.child)
      | _ => none) = some (1, 3) := by decide +kernel
  rw [hbuild] at hslot
  obtain ⟨slot, hget, heq⟩ := Option.map_eq_some_iff.mp hslot
  obtain ⟨hparent, hchild⟩ := Prod.mk.inj heq
  obtain ⟨_, _, _, _, hslots⟩ := hlevels [] c.top c.deeper rfl
  exact ⟨c, ks', slot, hbuild, hget, hparent, hchild, (hslots 98 slot hget).1⟩

end Dictionary

end Lexicon
