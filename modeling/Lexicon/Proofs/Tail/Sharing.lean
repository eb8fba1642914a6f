/-
Lexicon.Proofs.Tail.Sharing — which strings of a tail are written.

A string is compared with the one placed just before it and with no other. That is enough
because the strings are placed in descending order of their reversals: whatever stands in order
between two strings of which the one starts the other starts with it too
(`Sorting.prefix_of_between`), so a string that ends any string placed before it ends the last
one. `Filling.Shared` is what placing in this order keeps true, and `ofStrings_shares` is the
result: exactly the strings that end no other one are written, each of them once.
-/
import Lexicon.Proofs.Tail.Filling

namespace Lexicon

namespace Sorting

theorem bytesLe_of_prefix {s t : List UInt8} (h : s <+: t) : bytesLe s t = true := by
  obtain ⟨more, rfl⟩ := h
  induction s with
  | nil => rfl
  | cons b s ih => exact bytesLe_cons.mpr (Or.inr ⟨rfl, ih⟩)

/-- What stands in order between a string and one that starts with it starts with it too. -/
theorem prefix_of_between : ∀ {s t u : List UInt8}, bytesLe s t = true → bytesLe t u = true →
    s <+: u → s <+: t
  | [], t, _, _, _, _ => List.nil_prefix
  | _ :: _, [], _, h, _, _ => Bool.noConfusion h
  | _ :: _, _ :: _, [], _, h, _ => Bool.noConfusion h
  | a :: s, b :: t, c :: u, hst, htu, hfront => by
      obtain ⟨rfl, hbehind⟩ := List.cons_prefix_cons.mp hfront
      rw [bytesLe_cons] at hst htu
      rcases hst with hlt | ⟨rfl, hst⟩
      · rcases htu with hgt | ⟨rfl, _⟩
        · exact absurd hgt (UInt8.lt_asymm hlt)
        · exact absurd hlt (UInt8.lt_irrefl b)
      · have htu := (htu.resolve_left (UInt8.lt_irrefl a)).2
        exact List.cons_prefix_cons.mpr ⟨rfl, prefix_of_between hst htu hbehind⟩

theorem lt_of_bytesLe {s t : List UInt8} (h : bytesLe s t = true) (hne : s ≠ t) : s < t :=
  Std.lt_of_le_of_ne (bytesLe_iff_le.mp h) hne

end Sorting

namespace Tail

/-! ## Placing in descending order -/

/-- Of the strings placed, the newest first, each stands in order before those placed earlier. -/
def InOrder (placed : List (List UInt8 × Nat)) : Prop :=
  placed.Pairwise fun a b => Sorting.bytesLe a.1 b.1 = true

/-- What holds of a tail that is being filled if the reversed strings were placed in descending
order. -/
structure Filling.Shared (mode : TailMode) (placed : List (List UInt8 × Nat)) (f : Filling) : Prop
    extends Filling.Sound mode placed f where
  /-- The string that the next one is compared with is the one placed just before. -/
  newest : ∀ item ∈ placed.head?, ∃ p, f.last = some (item.1, p)
  /-- The written strings stand in order, so none of them is written twice. -/
  ascending : f.written.Pairwise fun a b => a.reverse < b.reverse
  /-- A written string ends no other one. -/
  whole : ∀ w ∈ f.written, ∀ item ∈ placed, w.reverse <+: item.1 → item.1 = w.reverse

namespace Filling

variable {mode : TailMode} {gap : Nat} {f : Filling} {placed : List (List UInt8 × Nat)}
  {item : List UInt8 × Nat}

theorem shared_empty (mode : TailMode) : Shared mode [] {} where
  toSound := sound_empty mode
  newest := by intro item h; cases h
  ascending := .nil
  whole := by intro w h; cases h

/-- A string is placed inside the one placed last, and then nothing is written, or it does not end
that one and is written. -/
theorem place_cases (gap : Nat) (f : Filling) (item : List UInt8 × Nat) :
    (f.place gap item).written = f.written
    ∨ (f.place gap item).written = item.1.reverse :: f.written
      ∧ ∀ last p, f.last = some (last, p) → ¬item.1 <+: last := by
  rw [place]
  cases hlast : f.last with
  | none =>
    refine Or.inr ⟨rfl, ?_⟩
    intro last p h
    cases h
  | some last =>
    obtain ⟨last, p⟩ := last
    simp only []
    by_cases hfront : item.1.isPrefixOf last = true
    · rw [if_pos hfront]
      exact Or.inl rfl
    · rw [if_neg hfront]
      refine Or.inr ⟨rfl, ?_⟩
      intro last' p' h
      obtain ⟨rfl, _⟩ := Prod.mk.inj (Option.some.inj h)
      rwa [List.isPrefixOf_iff_prefix] at hfront

theorem last_place (gap : Nat) (f : Filling) (item : List UInt8 × Nat) :
    ∃ p, (f.place gap item).last = some (item.1, p) := by
  rw [place]
  cases f.last with
  | none => exact ⟨_, rfl⟩
  | some last =>
    simp only []
    split
    · exact ⟨_, rfl⟩
    · exact ⟨_, rfl⟩

/-- A string that does not end the one placed last ends none of those placed before. -/
theorem Shared.not_prefix (h : Shared mode placed f)
    (hsorted : InOrder (item :: placed))
    (hlast : ∀ last p, f.last = some (last, p) → ¬item.1 <+: last) :
    ∀ other ∈ placed, ¬item.1 <+: other.1 := by
  cases placed with
  | nil =>
    intro other hother
    cases hother
  | cons first placed =>
    obtain ⟨p, hfirst⟩ := h.newest first rfl
    obtain ⟨hleast, hplaced⟩ := List.pairwise_cons.mp hsorted
    intro other hother hfront
    apply hlast _ _ hfirst
    rcases List.mem_cons.mp hother with rfl | hbefore
    · exact hfront
    · exact Sorting.prefix_of_between (hleast first List.mem_cons_self)
        ((List.pairwise_cons.mp hplaced).1 other hbefore) hfront

/-- A written string is one of those placed before, so it stands behind the next one in order and
ends it only if it is the same. -/
theorem Shared.whole_next (h : Shared mode placed f)
    (hsorted : InOrder (item :: placed)) :
    ∀ w ∈ f.written, w.reverse <+: item.1 → item.1 = w.reverse := by
  intro w hw hfront
  obtain ⟨other, hother, rfl⟩ := h.mem_written w hw
  rw [List.reverse_reverse] at hfront ⊢
  exact Sorting.bytesLe_antisymm ((List.pairwise_cons.mp hsorted).1 other hother)
    (Sorting.bytesLe_of_prefix hfront)

theorem Shared.place (hgap : ∀ string, (writtenBytes mode string).length = string.length + gap)
    (hone : gap ≤ 1) (h : Shared mode placed f)
    (hsorted : InOrder (item :: placed)) :
    Shared mode (item :: placed) (f.place gap item) where
  toSound := h.toSound.place hgap hone item
  newest := by
    rintro _ ⟨⟩
    exact last_place gap f item
  ascending := by
    rcases place_cases gap f item with hwritten | ⟨hwritten, hlast⟩
    · rw [hwritten]
      exact h.ascending
    · rw [hwritten]
      refine List.pairwise_cons.mpr ⟨?_, h.ascending⟩
      intro w hw
      obtain ⟨other, hother, rfl⟩ := h.mem_written w hw
      rw [List.reverse_reverse, List.reverse_reverse]
      -- An equal string placed before would be one that it ends.
      refine Sorting.lt_of_bytesLe ((List.pairwise_cons.mp hsorted).1 other hother) ?_
      intro heq
      exact h.not_prefix hsorted hlast other hother (heq ▸ List.prefix_refl _)
  whole := by
    have hbefore : ∀ w ∈ f.written, ∀ other ∈ item :: placed, w.reverse <+: other.1 →
        other.1 = w.reverse := by
      intro w hw other hother
      rcases List.mem_cons.mp hother with rfl | hother
      · exact h.whole_next hsorted w hw
      · exact h.whole w hw other hother
    rcases place_cases gap f item with hwritten | ⟨hwritten, hlast⟩
    · rw [hwritten]
      exact hbefore
    · rw [hwritten]
      intro w hw
      rcases List.mem_cons.mp hw with rfl | hw
      · intro other hother hfront
        rw [List.reverse_reverse] at hfront ⊢
        rcases List.mem_cons.mp hother with rfl | hother
        · rfl
        · exact absurd hfront (h.not_prefix hsorted hlast other hother)
      · exact hbefore w hw

theorem Shared.foldl (hgap : ∀ string, (writtenBytes mode string).length = string.length + gap)
    (hone : gap ≤ 1) {items placed : List (List UInt8 × Nat)} {f : Filling}
    (h : Shared mode placed f) (hsorted : InOrder (items.reverse ++ placed)) :
    Shared mode (items.reverse ++ placed) (items.foldl (Filling.place gap) f) := by
  induction items generalizing placed f with
  | nil => exact h
  | cons item items ih =>
    rw [List.reverse_cons, List.append_assoc] at hsorted ⊢
    -- The order of the whole row gives that of the strings placed up to now.
    exact ih (h.place hgap hone (List.pairwise_append.mp hsorted).2.1) hsorted

end Filling

/-! ## The written strings -/

variable {strings written : List (List UInt8)}

theorem shared_filled (mode : TailMode) (strings : List (List UInt8)) :
    Filling.Shared mode (itemsOf strings).reverse (filled mode strings) := by
  have hsorted : InOrder ((itemsOf strings).reverse ++ []) := by
    rw [List.append_nil, itemsOf, List.reverse_reverse]
    exact Sorting.sortStrings_sorted _ _
  have h := Filling.Shared.foldl (length_writtenBytes mode) (gapOf_le mode)
    (Filling.shared_empty mode) hsorted
  rwa [List.append_nil] at h

/-- Exactly those strings are written that end no other one. -/
theorem mem_written_filled {mode : TailMode} {string : List UInt8} :
    string ∈ (filled mode strings).written ↔ string ∈ strings
      ∧ ∀ other ∈ strings, string <:+ other → string = other := by
  have h := shared_filled mode strings
  have hitem : ∀ item ∈ (itemsOf strings).reverse, strings[item.2]? = some item.1.reverse :=
    fun item hmem => mem_itemsOf.mp (List.mem_reverse.mp hmem)
  have hmem : ∀ w ∈ (filled mode strings).written, w ∈ strings := by
    intro w hw
    obtain ⟨item, hplaced, rfl⟩ := h.mem_written w hw
    exact List.mem_of_getElem? (hitem item hplaced)
  have hof : ∀ other ∈ strings, ∃ i, (other.reverse, i) ∈ (itemsOf strings).reverse := by
    intro other hother
    obtain ⟨i, hi⟩ := List.mem_iff_getElem?.mp hother
    refine ⟨i, List.mem_reverse.mpr (mem_itemsOf.mpr ?_)⟩
    rwa [List.reverse_reverse]
  constructor
  · intro hw
    refine ⟨hmem string hw, ?_⟩
    intro other hother hends
    obtain ⟨i, hi⟩ := hof other hother
    exact (List.reverse_injective (h.whole string hw _ hi (List.reverse_prefix.mpr hends))).symm
  · rintro ⟨hstring, hmaximal⟩
    obtain ⟨i, hi⟩ := hof string hstring
    obtain ⟨p, hp⟩ := h.complete _ hi
    obtain ⟨r, hr, hplaced⟩ := h.positions _ hp
    have hsame : some string = some r.reverse := by
      rw [← hitem _ hr, hitem _ hi, List.reverse_reverse]
    obtain rfl := Option.some.inj hsame
    obtain ⟨cut, hcut⟩ := hplaced.mem
    rw [hmaximal _ (hmem _ (List.mem_reverse.mp hcut)) (List.suffix_append cut _)]
    exact List.mem_reverse.mp hcut

theorem written_filled_eq_nil_iff {mode : TailMode} :
    (filled mode strings).written = [] ↔ strings = [] := by
  constructor
  · intro hwritten
    cases strings with
    | nil => rfl
    | cons string strings =>
      have h := shared_filled mode (string :: strings)
      have hitem : (string.reverse, 0) ∈ (itemsOf (string :: strings)).reverse := by
        rw [List.mem_reverse, mem_itemsOf, List.reverse_reverse]
        rfl
      obtain ⟨p, hp⟩ := h.complete _ hitem
      obtain ⟨r, _, hplaced⟩ := h.positions _ hp
      obtain ⟨cut, hcut⟩ := hplaced.mem
      rw [hwritten] at hcut
      cases hcut
  · rintro rfl
    refine List.eq_nil_iff_forall_not_mem.mpr fun w hw => ?_
    exact List.not_mem_nil (mem_written_filled.mp hw).1

/-! ## What is stored -/

/-- Of the bytes of the written strings the one at a position is the last of a string. -/
def IsLast (written : List (List UInt8)) (i : Nat) : Prop :=
  ∃ front w back, written = front ++ w :: back ∧ i + 1 = (front ++ [w]).flatten.length

theorem isLast_cons {w : List UInt8} {i : Nat} : IsLast (w :: written) i ↔
    i + 1 = w.length ∨ ∃ j, i = w.length + j ∧ IsLast written j := by
  constructor
  · rintro ⟨front, x, back, hsplit, hi⟩
    cases front with
    | nil =>
      obtain ⟨rfl, rfl⟩ := List.cons.inj hsplit
      exact Or.inl (by simpa using hi)
    | cons y front =>
      obtain ⟨rfl, rfl⟩ := List.cons.inj hsplit
      rw [List.cons_append, List.flatten_cons, List.length_append] at hi
      rcases Nat.eq_zero_or_pos (front ++ [x]).flatten.length with hzero | hpos
      · exact Or.inl (by omega)
      · exact Or.inr ⟨i - w.length, by omega, front, x, back, rfl, by omega⟩
  · rintro (hi | ⟨j, rfl, front, x, back, rfl, hj⟩)
    · exact ⟨[], w, written, rfl, by simpa using hi⟩
    · refine ⟨w :: front, x, back, rfl, ?_⟩
      rw [List.cons_append, List.flatten_cons, List.length_append, ← hj, Nat.add_assoc]

/-- Of the end flags of the written strings those at their last bytes are set. -/
theorem flags_getElem? (hne : ∀ w ∈ written, w ≠ []) {i : Nat} (hi : i < written.flatten.length) :
    ∃ flag, (written.flatMap (writtenFlags .binary))[i]? = some flag
      ∧ (flag = true ↔ IsLast written i) := by
  induction written generalizing i with
  | nil => exact absurd hi (Nat.not_lt_zero i)
  | cons w written ih =>
    have hlength := length_writtenFlags (hne w List.mem_cons_self)
    rw [List.flatten_cons, List.length_append] at hi
    rw [List.flatMap_cons, isLast_cons]
    by_cases hin : i < w.length
    · rw [List.getElem?_append_left (by omega), writtenFlags_getElem? hin]
      refine ⟨_, rfl, ?_⟩
      rw [decide_eq_true_iff]
      refine ⟨Or.inl, ?_⟩
      rintro (hlast | ⟨j, hj, _⟩)
      · exact hlast
      · omega
    · obtain ⟨flag, hget, hflag⟩ := ih (fun x hx => hne x (List.mem_cons_of_mem w hx))
        (show i - w.length < written.flatten.length by omega)
      rw [List.getElem?_append_right (by omega), hlength]
      refine ⟨flag, hget, hflag.trans ⟨fun h => Or.inr ⟨i - w.length, by omega, h⟩, ?_⟩⟩
      rintro (hlast | ⟨j, rfl, hj⟩)
      · omega
      · rwa [Nat.add_sub_cancel_left]

theorem flatMap_writtenBytes_binary (written : List (List UInt8)) :
    written.flatMap (writtenBytes .binary) = written.flatten :=
  List.flatMap_id

/-- There are no end flags if the strings end by NUL bytes, or if there are none. -/
theorem mode_ofWritten (mode : TailMode) (hne : ∀ w ∈ written, w ≠ []) :
    (ofWritten mode written).mode = if written = [] then .text else mode := by
  rw [Tail.mode, ofWritten, BitVector.size_ofBits]
  cases written with
  | nil => rfl
  | cons w written =>
    rw [if_neg (List.cons_ne_nil w written)]
    cases mode with
    | text =>
      have hflags : (w :: written).flatMap (writtenFlags .text) = [] :=
        List.flatMap_eq_nil_iff.mpr fun _ _ => rfl
      rw [hflags]
      rfl
    | binary =>
      have hpos := List.length_pos_iff.mpr (hne w List.mem_cons_self)
      rw [length_flatMap_writtenFlags hne, flatMap_writtenBytes_binary, List.flatten_cons,
        List.length_append, if_neg (by omega)]

theorem bytes_ofWritten (mode : TailMode) (hne : ∀ w ∈ written, w ≠ []) :
    (ofWritten mode written).bytes.toList = written.flatMap fun string =>
      if (ofWritten mode written).mode = .text then string ++ [0] else string := by
  rw [mode_ofWritten mode hne]
  cases written with
  | nil => rfl
  | cons w written => cases mode <;> rfl

theorem endFlags_ofWritten {mode : TailMode} (hne : ∀ w ∈ written, w ≠ [])
    (hbinary : (ofWritten mode written).mode = .binary) :
    (ofWritten mode written).endFlags.size = (ofWritten mode written).bytes.size
      ∧ ∀ i < (ofWritten mode written).bytes.size, ∃ flag,
        (ofWritten mode written).endFlags.get? i = some flag ∧ (flag = true ↔ IsLast written i) := by
  rw [mode_ofWritten mode hne] at hbinary
  obtain rfl : mode = .binary := by
    split at hbinary
    · cases hbinary
    · exact hbinary
  have hsize : (ofWritten .binary written).bytes.size
      = (written.flatMap (writtenBytes .binary)).length := rfl
  refine ⟨length_flatMap_writtenFlags hne, ?_⟩
  intro i hi
  rw [hsize, flatMap_writtenBytes_binary] at hi
  rw [ofWritten, BitVector.get?_ofBits]
  exact flags_getElem? hne hi

theorem modeFor_eq_text_iff {mode : TailMode} :
    modeFor mode strings = .text ↔ mode = .text ∧ ∀ string ∈ strings, 0 ∉ string := by
  rw [modeFor]
  by_cases hany : strings.any (·.contains 0) = true
  · obtain ⟨string, hstring, hzero⟩ := List.any_eq_true.mp hany
    rw [if_pos hany]
    constructor
    · intro h
      cases h
    · rintro ⟨_, hall⟩
      exact absurd (List.contains_iff_mem.mp hzero) (hall string hstring)
  · rw [if_neg hany]
    refine ⟨fun h => ⟨h, ?_⟩, And.left⟩
    intro string hstring hzero
    exact hany (List.any_eq_true.mpr ⟨string, hstring, List.contains_iff_mem.mpr hzero⟩)

/-! ## The room that is taken -/

/-- The different strings that end no other one. -/
def needed (strings : List (List UInt8)) : List (List UInt8) :=
  (strings.filter fun string =>
    strings.all fun other => !string.isSuffixOf other || string == other).dedup

/-- The bytes that some strings take in a tail if ends are shared. -/
def storedSize (mode : TailMode) (strings : List (List UInt8)) : Nat :=
  ((needed strings).map fun string => (writtenBytes (modeFor mode strings) string).length).sum

theorem mem_needed {string : List UInt8} : string ∈ needed strings ↔ string ∈ strings
    ∧ ∀ other ∈ strings, string <:+ other → string = other := by
  have hends : ∀ other : List UInt8, (!string.isSuffixOf other || string == other) = true
      ↔ (string <:+ other → string = other) := by
    intro other
    rw [Bool.or_eq_true, Bool.not_eq_true', ← Bool.not_eq_true, List.isSuffixOf_iff_suffix,
      beq_iff_eq, imp_iff_not_or]
  rw [needed, List.mem_dedup, List.mem_filter, List.all_eq_true]
  simp only [hends]

theorem written_filled_perm (mode : TailMode) (strings : List (List UInt8)) :
    (filled mode strings).written.Perm (needed strings) := by
  have hnodup : (filled mode strings).written.Nodup := by
    refine (shared_filled mode strings).ascending.imp ?_
    rintro w _ hlt rfl
    exact List.lt_irrefl _ hlt
  refine (List.perm_ext_iff_of_nodup hnodup (List.nodup_dedup _)).mpr fun string => ?_
  rw [mem_written_filled, ← mem_needed, needed]

theorem used_filled (mode : TailMode) (strings : List (List UInt8)) :
    (filled (modeFor mode strings) strings).used = storedSize mode strings := by
  rw [(shared_filled _ strings).used_eq, List.length_flatMap, storedSize, List.map_reverse,
    List.sum_reverse]
  exact ((written_filled_perm _ strings).map _).sum_nat

/-- An empty string is refused, and nothing else is if there is room. -/
theorem ofStrings_eq_emptySuffix_iff {mode : TailMode}
    (hlt : storedSize mode strings < UInt32.size) :
    ofStrings mode strings = .error .emptySuffix ↔ [] ∈ strings := by
  rw [← used_filled] at hlt
  constructor
  · intro herror
    by_contra hnil
    rw [ofStrings_of_lt mode (fun string hstring h => hnil (h ▸ hstring)) hlt] at herror
    cases herror
  · intro hnil
    obtain ⟨i, hi⟩ := List.mem_iff_getElem?.mp hnil
    have hempty : ∃ item ∈ itemsOf strings, item.1 = [] := ⟨([], i), mem_itemsOf.mpr hi, rfl⟩
    rw [ofStrings_eq, Filling.foldlM_place?_of_empty hempty hlt]
    rfl

/-- Strings that are not empty are refused if and only if there is no room for them. -/
theorem ofStrings_eq_tailTooLong_iff {mode : TailMode} (hnil : [] ∉ strings) :
    ofStrings mode strings = .error .tailTooLong ↔ UInt32.size ≤ storedSize mode strings := by
  have hne : ∀ string ∈ strings, string ≠ [] := fun string hstring h => hnil (h ▸ hstring)
  rw [← used_filled]
  constructor
  · intro herror
    by_contra hlt
    rw [ofStrings_of_lt mode hne (Nat.lt_of_not_le hlt)] at herror
    cases herror
  · intro hle
    rw [ofStrings_eq, Filling.foldlM_place?_of_long (ne_nil_of_mem_itemsOf hne)
      (by decide : ({} : Filling).used < UInt32.size) hle]
    rfl

/-- The mode for the strings is the mode of the tail, unless nothing is stored. -/
theorem mode_ofStrings {mode : TailMode} {tail : Tail} {positions : List Nat}
    (h : ofStrings mode strings = .ok (tail, positions)) :
    tail.mode = if strings = [] then .text else modeFor mode strings := by
  obtain ⟨hne, rfl⟩ := of_ofStrings h
  rw [mode_ofWritten]
  · simp only [List.reverse_eq_nil_iff, written_filled_eq_nil_iff]
  · intro w hw
    exact hne w (mem_written_filled.mp (List.mem_reverse.mp hw)).1

theorem mode_ofStrings_eq_text_iff {mode : TailMode} {tail : Tail} {positions : List Nat}
    (h : ofStrings mode strings = .ok (tail, positions)) :
    tail.mode = .text ↔ strings = [] ∨ mode = .text ∧ ∀ string ∈ strings, 0 ∉ string := by
  rw [mode_ofStrings h]
  by_cases hnil : strings = []
  · simp [hnil]
  · rw [if_neg hnil, modeFor_eq_text_iff, or_iff_right hnil]

/-- A tail shares all ends that can be shared. Strings of which none is empty are refused just if
what is stored of them would be too long. Of all other lists those with an empty string are refused
as such, and the rest is stored: each string is read at its position, and the bytes are, in
descending order of their reversals, the different strings that end no other one, each once, with
NUL bytes behind them or with flags at just their last bytes. NUL bytes end them if this was asked
for and no string has one, and always if there are no strings. -/
theorem ofStrings_shares (mode : TailMode) (strings : List (List UInt8)) :
    ([] ∉ strings →
      (ofStrings mode strings = .error .tailTooLong ↔ 2 ^ 32 ≤ storedSize mode strings))
    ∧ (storedSize mode strings < 2 ^ 32 →
      (ofStrings mode strings = .error .emptySuffix ↔ [] ∈ strings)
      ∧ ([] ∉ strings → ∃ tail positions written, ofStrings mode strings = .ok (tail, positions)
        ∧ positions.length = strings.length
        ∧ (∀ (i : Nat) string, strings[i]? = some string →
          ∃ position, positions[i]? = some position ∧ tail.restore? position = some string)
        ∧ written.Pairwise (fun a b => b.reverse < a.reverse)
        ∧ (∀ string, string ∈ written ↔ string ∈ strings
          ∧ ∀ other ∈ strings, string <:+ other → string = other)
        ∧ tail.bytes.toList
          = written.flatMap (fun string => if tail.mode = .text then string ++ [0] else string)
        ∧ (tail.mode = .binary → tail.endFlags.size = tail.bytes.size
          ∧ ∀ i < tail.bytes.size, ∃ flag, tail.endFlags.get? i = some flag
            ∧ (flag = true ↔ IsLast written i))
        ∧ (tail.mode = .text ↔ strings = [] ∨ mode = .text ∧ ∀ string ∈ strings, 0 ∉ string))) := by
  refine ⟨ofStrings_eq_tailTooLong_iff, ?_⟩
  intro hlt
  refine ⟨ofStrings_eq_emptySuffix_iff hlt, ?_⟩
  intro hnil
  have hne : ∀ string ∈ strings, string ≠ [] := fun string hstring h => hnil (h ▸ hstring)
  rw [← used_filled] at hlt
  obtain ⟨tail, positions, hstored, hholds⟩ := ofStrings_spec mode hne hlt
  have heq := ofStrings_of_lt mode hne hlt
  rw [hstored] at heq
  obtain ⟨rfl, rfl⟩ := Prod.mk.inj (Except.ok.inj heq)
  have hshared := shared_filled (modeFor mode strings) strings
  have hwritten : ∀ w ∈ (filled (modeFor mode strings) strings).written.reverse, w ≠ [] := by
    intro w hw
    exact hne w (mem_written_filled.mp (List.mem_reverse.mp hw)).1
  refine ⟨_, _, _, hstored, ?_, ?_, List.pairwise_reverse.mpr hshared.ascending, ?_,
    bytes_ofWritten _ hwritten, endFlags_ofWritten hwritten, mode_ofStrings_eq_text_iff hstored⟩
  · simp
  · intro i string hstring
    obtain ⟨position, hposition, hat, _⟩ := hholds i string hstring
    exact ⟨position, hposition, restore?_of_holds hat⟩
  · intro string
    rw [List.mem_reverse]
    exact mem_written_filled

/-- A NUL byte in one of the strings forbids to end them by NUL bytes. The string that ends this one
occurs twice, is not written and is read all the same. -/
theorem ofStrings_shares_nul_byte : ∃ tail positions, ∃ written : List (List UInt8),
    storedSize .text [[97, 0, 98], [98], [99, 100], [98]] = 5
      ∧ ofStrings .text [[97, 0, 98], [98], [99, 100], [98]] = .ok (tail, positions)
      ∧ tail.mode = .binary ∧ tail.bytes.toList = written.flatten
      ∧ [97, 0, 98] ∈ written ∧ [98] ∉ written
      ∧ ∃ position, positions[3]? = some position ∧ tail.restore? position = some [98] := by
  have hsize : storedSize .text [[97, 0, 98], [98], [99, 100], [98]] = 5 := by decide
  obtain ⟨tail, positions, written, hstored, _, hrestored, _, hmem, hbytes, _, hmode⟩ :=
    ((ofStrings_shares .text [[97, 0, 98], [98], [99, 100], [98]]).2 (by rw [hsize]; decide)).2
      (by decide)
  have hbinary : tail.mode = .binary := by
    cases htail : tail.mode with
    | text => exact absurd (hmode.mp htail) (by decide)
    | binary => rfl
  have hflat : tail.bytes.toList = written.flatten := by
    rw [hbytes, hbinary]
    exact List.flatMap_id
  refine ⟨tail, positions, written, hsize, hstored, hbinary, hflat, (hmem _).mpr (by decide), ?_,
    hrestored 3 [98] rfl⟩
  intro hwritten
  have hends := ((hmem _).mp hwritten).2 [97, 0, 98] (by decide) (by decide)
  exact absurd hends (by decide)

end Tail

end Lexicon
