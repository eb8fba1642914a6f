/-
Lexicon.Proofs.Totals — building sees of a keyset what each key weighs in all.

The weights below any bytes are sums of what whole keys weigh (`Keyset.weightBelow_eq_sum`),
so two keysets with the same keys and the same total for each have trees of one outline,
whatever the order of their entries and however a total is shared out. A level is laid out
from the outline alone, and it hands on the labels of the outline, so the levels below do
not even start from different strings (`Cascade.build_of_outline`): both keysets are built
into one dictionary. An id is read off the first level, which is the same for both.
-/
import Lexicon.Proofs.Search.Exact
import Lexicon.Proofs.Search.Order
import Lexicon.Proofs.Shape.Pooling
import Lexicon.Wire.Encode
import Mathlib.Algebra.BigOperators.Group.Finset.Piecewise

namespace Lexicon

/-! ## Totals of keys -/

namespace Keyset

/-- The sum of the weights of all entries with keys of some kind. -/
def weightWhere (entries : List Entry) (p : List UInt8 → Bool) : Nat :=
  ((entries.filter fun entry => p entry.bytes).map (·.weight.toNat)).sum

/-- The sum of the weights of all entries of a key. -/
def weightOf (ks : Keyset) (key : List UInt8) : Nat :=
  weightWhere ks.entries.toList (· = key)

@[simp] theorem weightWhere_nil (p : List UInt8 → Bool) : weightWhere [] p = 0 := rfl

theorem weightWhere_cons (entry : Entry) (entries : List Entry) (p : List UInt8 → Bool) :
    weightWhere (entry :: entries) p
      = (if p entry.bytes then entry.weight.toNat else 0) + weightWhere entries p := by
  unfold weightWhere
  rw [List.filter_cons]
  split
  · rw [List.map_cons, List.sum_cons]
  · rw [Nat.zero_add]

/-- Entry by entry or key by key, the sum is the same. -/
theorem weightWhere_eq_sum {entries : List Entry} {keys : Finset (List UInt8)}
    (h : ∀ entry ∈ entries, entry.bytes ∈ keys) (p : List UInt8 → Bool) :
    weightWhere entries p = ∑ key ∈ keys with p key, weightWhere entries (· = key) := by
  induction entries with
  | nil => simp
  | cons entry entries ih =>
    have hkey := h entry List.mem_cons_self
    have ih' := ih fun other hother => h other (List.mem_cons_of_mem entry hother)
    simp only [weightWhere_cons, decide_eq_true_eq, Finset.sum_add_distrib, Finset.sum_ite_eq,
      Finset.mem_filter, hkey, true_and, ← ih']

variable {ks ks' : Keyset}

/-- If every key has the same total in both keysets, so have the keys that start with some bytes. -/
theorem weightBelow_eq (hkeys : ks'.keys.toFinset = ks.keys.toFinset)
    (htotals : ∀ key ∈ ks.keys, ks'.weightOf key = ks.weightOf key) (front : List UInt8) :
    ks'.weightBelow front = ks.weightBelow front := by
  have hmem : ∀ entry ∈ ks.entries.toList, entry.bytes ∈ ks.keys.toFinset := by
    intro entry hentry
    exact List.mem_toFinset.mpr (List.mem_map_of_mem hentry)
  have hmem' : ∀ entry ∈ ks'.entries.toList, entry.bytes ∈ ks.keys.toFinset := by
    intro entry hentry
    rw [← hkeys]
    exact List.mem_toFinset.mpr (List.mem_map_of_mem hentry)
  calc ks'.weightBelow front
      = ∑ key ∈ ks.keys.toFinset with front.isPrefixOf key, ks'.weightOf key :=
        weightWhere_eq_sum hmem' _
    _ = ∑ key ∈ ks.keys.toFinset with front.isPrefixOf key, ks.weightOf key := by
        apply Finset.sum_congr rfl
        intro key hkey
        exact htotals key (List.mem_toFinset.mp (Finset.mem_filter.mp hkey).1)
    _ = ks.weightBelow front := (weightWhere_eq_sum hmem _).symm

/-- Two keysets with the same total for every key have trees of one outline. -/
theorem outline_eq (order : SiblingOrder)
    (hnatural : ∀ entry ∈ ks.entries.toList, entry.weight.Natural)
    (hnatural' : ∀ entry ∈ ks'.entries.toList, entry.weight.Natural)
    (hsmall : ks.weightBelow [] < 2 ^ 24) (hkeys : ks'.keys.toFinset = ks.keys.toFinset)
    (htotals : ∀ key ∈ ks.keys, ks'.weightOf key = ks.weightOf key) :
    (Shape.ofStrings order .forward ks'.strings).outline
      = (Shape.ofStrings order .forward ks.strings).outline := by
  have hstrings : ∀ ks : Keyset, ks.strings.map Prod.fst = ks.keys := by
    intro ks
    rw [strings, List.map_map]
    rfl
  have hall : ∀ {ks : Keyset}, (∀ entry ∈ ks.entries.toList, entry.weight.Natural) →
      ∀ x ∈ ks.strings, x.2.Natural := by
    intro ks hnatural x hx
    obtain ⟨entry, hentry, rfl⟩ := List.mem_map.mp hx
    exact hnatural entry hentry
  apply Shape.outline_ofStrings order (hall hnatural') (hall hnatural)
  · rwa [weightBelow_strings, weightBelow_eq hkeys htotals]
  · intro string
    rw [hstrings, hstrings, ← List.mem_toFinset, hkeys, List.mem_toFinset]
  · intro front
    rw [weightBelow_strings, weightBelow_strings, weightBelow_eq hkeys htotals]

end Keyset

/-! ## One dictionary for both -/

/-- Lists of strings whose trees have one outline are built into one cascade. -/
theorem Cascade.build_of_outline {config : Config} {reading : Reading}
    {strings strings' : List (List UInt8 × Weight)} (hbytes : bytesOf strings < 2 ^ 30)
    (hbytes' : bytesOf strings' < 2 ^ 30)
    (h : (Shape.ofStrings config.order reading strings').outline
      = (Shape.ofStrings config.order reading strings).outline) (more : Nat) :
    ∃ c, build config more reading strings
        = .ok (c, (Shape.ofStrings config.order reading strings).ends)
      ∧ build config more reading strings'
        = .ok (c, (Shape.ofStrings config.order reading strings').ends) := by
  have hlabels : labelsOf reading (Shape.ofStrings config.order reading strings)
      = labelsOf reading (Shape.ofStrings config.order reading strings') := by
    rw [labelsOf, ← Shape.linkLabels_outline, ← h, Shape.linkLabels_outline, ← labelsOf]
  have hlevel : Level.ofShape reading (Shape.ofStrings config.order reading strings)
      = Level.ofShape reading (Shape.ofStrings config.order reading strings') := by
    funext targets tail config'
    rw [← Level.ofShape_outline, ← h, Level.ofShape_outline]
  by_cases hempty : (labelsOf reading (Shape.ofStrings config.order reading strings)).isEmpty
  · refine ⟨_, build_no_labels hbytes hempty, ?_⟩
    rw [hlevel]
    exact build_no_labels hbytes' (hlabels ▸ hempty)
  · cases more with
    | zero =>
      obtain ⟨tail, positions, htail, _⟩ := Tail.ofStrings_spec config.tail
        (labels_ne_nil reading _) (room_of_labels config.order reading hbytes _)
      refine ⟨_, build_tail hbytes hempty htail, ?_⟩
      rw [hlevel]
      exact build_tail hbytes' (hlabels ▸ hempty) (hlabels ▸ htail)
    | succ more =>
      obtain ⟨below, hbelow, _⟩ :=
        build_spec config more .backward _ (bytesOf_labelsOf_lt config.order reading hbytes)
      refine ⟨_, build_below hbytes hempty hbelow, ?_⟩
      rw [hlevel, hlabels]
      exact build_below hbytes' (hlabels ▸ hempty) (hlabels ▸ hbelow)

/-- What is built from the keys tells their tree. -/
theorem Cascade.tells_of_build {c : Cascade} {ks : Keyset} {config : Config} {more : Nat}
    (hlimits : ks.WithinLimits) (h : build config more .forward ks.strings
      = .ok (c, (Shape.ofStrings config.order .forward ks.strings).ends)) :
    c.Tells (Shape.ofStrings config.order .forward ks.strings) := by
  obtain ⟨c', hbuild, htells⟩ := exists_build_tells config more hlimits
  rw [h] at hbuild
  obtain ⟨rfl, _⟩ := Prod.mk.inj (Except.ok.inj hbuild)
  exact htells

/-- A cascade gives a key one id, whichever keyset it is the cascade of. -/
theorem Indexes.id_eq {c : Cascade} {s s' : Shape} {ks ks' : Keyset} (h : Indexes c s ks)
    (h' : Indexes c s' ks') {entry entry' : Entry} (hentry : entry ∈ ks.entries.toList)
    (hentry' : entry' ∈ ks'.entries.toList) (hbytes : entry'.bytes = entry.bytes) :
    entry'.id = entry.id := by
  obtain ⟨answer, hanswer, hids⟩ := h.lookup?_eq entry.bytes
  obtain ⟨answer', hanswer', hids'⟩ := h'.lookup?_eq entry.bytes
  have hid := (hids _).mpr ((h.keyed_iff _ _).mpr ⟨entry, hentry, rfl, rfl⟩)
  have hid' := (hids' _).mpr ((h'.keyed_iff _ _).mpr ⟨entry', hentry', hbytes, rfl⟩)
  rw [hanswer, hid, hid'] at hanswer'
  exact (Option.some.inj (Option.some.inj hanswer')).symm

namespace Dictionary

/-- Keysets that have the same keys, and for each the same total of natural weights, are built into
one dictionary, and so stored as the same bytes. Entries of one key carry one id in both. -/
theorem build_of_totals {ks ks' : Keyset} {config : Config} (hlimits : ks.WithinLimits)
    (hlimits' : ks'.WithinLimits) (hvalid : config.Valid)
    (hnatural : ∀ entry ∈ ks.entries.toList, entry.weight.Natural)
    (hnatural' : ∀ entry ∈ ks'.entries.toList, entry.weight.Natural)
    (hsmall : ks.weightBelow [] < 2 ^ 24) (hkeys : ks'.keys.toFinset = ks.keys.toFinset)
    (htotals : ∀ key ∈ ks.keys, ks'.weightOf key = ks.weightOf key) :
    ∃ d built built' bytes, Dictionary.build ks config = .ok (d, built)
      ∧ Dictionary.build ks' config = .ok (d, built')
      ∧ ks.SameKeys built ∧ ks'.SameKeys built' ∧ d.encode = .ok bytes
      ∧ ∀ entry ∈ built.entries.toList, ∀ entry' ∈ built'.entries.toList,
        entry'.bytes = entry.bytes → entry'.id = entry.id := by
  have houtline := Keyset.outline_eq config.order hnatural hnatural' hsmall hkeys htotals
  obtain ⟨c, hbuild, hbuild'⟩ := Cascade.build_of_outline
    (Keyset.bytesOf_strings_lt hlimits) (Keyset.bytesOf_strings_lt hlimits') houtline
    (config.levels - 1)
  obtain ⟨built, hbuilt, hsame, hindexes⟩ :=
    build_of_tells hvalid hbuild (Cascade.tells_of_build hlimits hbuild)
  obtain ⟨built', hbuilt', hsame', hindexes'⟩ :=
    build_of_tells hvalid hbuild' (Cascade.tells_of_build hlimits' hbuild')
  refine ⟨⟨some c⟩, built, built', c.encode, hbuilt, hbuilt', hsame, hsame', rfl, ?_⟩
  intro entry hentry entry' hentry' hbytes
  exact hindexes.id_eq hindexes' hentry hentry' hbytes

/-- The entries stand in another order, one key has its weight in two of them, and another is given
again with no weight at all. -/
theorem build_of_totals_split : ∃ d built built' bytes,
    Dictionary.build ⟨#[{ bytes := [97, 98, 99], weight := ⟨0x40400000⟩ },
      { bytes := [97, 98], weight := ⟨0x40000000⟩ }, { bytes := [98] },
      { bytes := [97], weight := ⟨0⟩ }]⟩ {} = .ok (d, built)
      ∧ Dictionary.build ⟨#[{ bytes := [97], weight := ⟨0⟩ }, { bytes := [98] },
        { bytes := [97, 98, 99], weight := ⟨0x40000000⟩ }, { bytes := [98], weight := ⟨0⟩ },
        { bytes := [97, 98], weight := ⟨0x40000000⟩ }, { bytes := [97, 98, 99] }]⟩ {}
          = .ok (d, built')
      ∧ d.encode = .ok bytes
      ∧ ∀ entry ∈ built.entries.toList, ∀ entry' ∈ built'.entries.toList,
        entry'.bytes = entry.bytes → entry'.id = entry.id := by
  have hlimits : (⟨#[{ bytes := [97, 98, 99], weight := ⟨0x40400000⟩ },
      { bytes := [97, 98], weight := ⟨0x40000000⟩ }, { bytes := [98] },
      { bytes := [97], weight := ⟨0⟩ }]⟩ : Keyset).WithinLimits := by decide
  have hlimits' : (⟨#[{ bytes := [97], weight := ⟨0⟩ }, { bytes := [98] },
      { bytes := [97, 98, 99], weight := ⟨0x40000000⟩ }, { bytes := [98], weight := ⟨0⟩ },
      { bytes := [97, 98], weight := ⟨0x40000000⟩ },
      { bytes := [97, 98, 99] }]⟩ : Keyset).WithinLimits := by decide
  have hvalid : ({} : Config).Valid := by decide
  obtain ⟨d, built, built', bytes, hbuilt, hbuilt', _, _, hbytes, hids⟩ :=
    build_of_totals hlimits hlimits' hvalid (by decide) (by decide) (by decide) (by decide)
      (by decide)
  exact ⟨d, built, built', bytes, hbuilt, hbuilt', hbytes, hids⟩

end Dictionary

end Lexicon
