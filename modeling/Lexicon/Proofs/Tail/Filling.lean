/-
Lexicon.Proofs.Tail.Filling — every string stored in a tail stands at its position.

`Placed` says that a string is an end of one of the written strings and that its
position is where that end begins. `Filling.Sound` is what placing strings one after
the other keeps true, whatever their order: the order decides how many strings are
written, not whether they can be read. A string is placed only if it is not empty and
leaves room (`Filling.place?`); as the room taken only grows, the outcome of placing all
is told by the room that all would take. `ofStrings_spec` is the result: strings that
are not empty are stored if there is room, each of them stands at its position, and the
positions are less than the bytes that the strings would take one by one.
-/
import Lexicon.Proofs.Folds
import Lexicon.Proofs.Sorting.Strings
import Lexicon.Proofs.Tail.Reading
import Lexicon.Tail.Build

namespace Lexicon.Tail

/-- A string ends one of the written ones, and begins at the given position. -/
def Placed (mode : TailMode) (written : List (List UInt8)) (string : List UInt8)
    (position : Nat) : Prop :=
  ∃ front cut back, written = front ++ (cut ++ string) :: back
    ∧ position = (front.flatMap (writtenBytes mode)).length + cut.length

section

variable {mode : TailMode} {written : List (List UInt8)} {string : List UInt8} {position : Nat}

theorem Placed.append (h : Placed mode written string position) (more : List (List UInt8)) :
    Placed mode (written ++ more) string position := by
  obtain ⟨front, cut, back, hwritten, hposition⟩ := h
  refine ⟨front, cut, back ++ more, ?_, hposition⟩
  rw [hwritten, List.append_assoc, List.cons_append]

/-- What ends a placed string is placed inside it. -/
theorem Placed.inside {front : List UInt8} (h : Placed mode written (front ++ string) position) :
    Placed mode written string (position + front.length) := by
  obtain ⟨before, cut, back, hwritten, hposition⟩ := h
  refine ⟨before, cut ++ front, back, ?_, ?_⟩
  · rw [hwritten, List.append_assoc]
  · rw [hposition, List.length_append, Nat.add_assoc]

theorem placed_behind (mode : TailMode) (written : List (List UInt8)) (string : List UInt8) :
    Placed mode (written ++ [string]) string (written.flatMap (writtenBytes mode)).length :=
  ⟨written, [], [], rfl, rfl⟩

theorem length_le_writtenBytes (mode : TailMode) (string : List UInt8) :
    string.length ≤ (writtenBytes mode string).length := by
  cases mode with
  | text =>
    rw [writtenBytes, List.length_append]
    exact Nat.le_add_right _ _
  | binary => exact Nat.le_refl _

theorem Placed.add_length_le (h : Placed mode written string position) :
    position + string.length ≤ (written.flatMap (writtenBytes mode)).length := by
  obtain ⟨front, cut, back, rfl, rfl⟩ := h
  have hlength := length_le_writtenBytes mode (cut ++ string)
  rw [List.length_append] at hlength
  rw [List.flatMap_append, List.length_append, List.flatMap_cons, List.length_append]
  omega

theorem Placed.mem (h : Placed mode written string position) : ∃ cut, cut ++ string ∈ written := by
  obtain ⟨front, cut, back, rfl, _⟩ := h
  exact ⟨cut, by simp⟩

end

/-! ## Placing strings -/

/-- What holds of a tail that is being filled, after the given reversed strings with their indices
were placed. -/
structure Filling.Sound (mode : TailMode) (placed : List (List UInt8 × Nat)) (f : Filling) :
    Prop where
  used_eq : f.used = (f.written.reverse.flatMap (writtenBytes mode)).length
  used_le : f.used ≤ (placed.map (·.1.length + 1)).sum
  last : ∀ r p, f.last = some (r, p) → Placed mode f.written.reverse r.reverse p
  mem_written : ∀ string ∈ f.written, ∃ item ∈ placed, string = item.1.reverse
  positions : ∀ x ∈ f.positions, ∃ r, (r, x.1) ∈ placed ∧ Placed mode f.written.reverse r.reverse x.2
  complete : ∀ item ∈ placed, ∃ p, (item.2, p) ∈ f.positions

namespace Filling

variable {mode : TailMode} {gap : Nat} {f : Filling} {placed : List (List UInt8 × Nat)}

theorem sound_empty (mode : TailMode) : Sound mode [] {} where
  used_eq := rfl
  used_le := Nat.le_refl 0
  last := by intro r p h; cases h
  mem_written := by intro string h; cases h
  positions := by intro x h; cases h
  complete := by intro item h; cases h

/-- The position of one more string, and that those placed before keep theirs. -/
theorem Sound.extend {more : List (List UInt8)} {f' : Filling} {item : List UInt8 × Nat} {p : Nat}
    (h : Sound mode placed f) (hwritten : f'.written.reverse = f.written.reverse ++ more)
    (hlast : f'.last = some (item.1, p)) (hpositions : f'.positions = (item.2, p) :: f.positions)
    (hmore : ∀ string ∈ more, string = item.1.reverse)
    (hplaced : Placed mode f'.written.reverse item.1.reverse p)
    (hused : f'.used = (f'.written.reverse.flatMap (writtenBytes mode)).length)
    (hle : f'.used ≤ f.used + (item.1.length + 1)) : Sound mode (item :: placed) f' where
  used_eq := hused
  used_le := by
    have hbefore := h.used_le
    rw [List.map_cons, List.sum_cons]
    omega
  last := by
    intro r q hrq
    rw [hlast] at hrq
    obtain ⟨rfl, rfl⟩ := Prod.mk.inj (Option.some.inj hrq)
    exact hplaced
  mem_written := by
    intro string hstring
    rw [← List.mem_reverse, hwritten, List.mem_append] at hstring
    rcases hstring with hold | hnew
    · obtain ⟨other, hother, heq⟩ := h.mem_written string (List.mem_reverse.mp hold)
      exact ⟨other, List.mem_cons_of_mem _ hother, heq⟩
    · exact ⟨item, List.mem_cons_self, hmore string hnew⟩
  positions := by
    intro x hx
    rw [hpositions] at hx
    rcases List.mem_cons.mp hx with rfl | hx
    · exact ⟨item.1, List.mem_cons_self, hplaced⟩
    · obtain ⟨r, hr, hat⟩ := h.positions x hx
      refine ⟨r, List.mem_cons_of_mem _ hr, ?_⟩
      rw [hwritten]
      exact hat.append more
  complete := by
    intro other hother
    rw [hpositions]
    rcases List.mem_cons.mp hother with rfl | hother
    · exact ⟨p, List.mem_cons_self⟩
    · obtain ⟨q, hq⟩ := h.complete other hother
      exact ⟨q, List.mem_cons_of_mem _ hq⟩

theorem Sound.write (hgap : ∀ string, (writtenBytes mode string).length = string.length + gap)
    (hone : gap ≤ 1) (h : Sound mode placed f) (item : List UInt8 × Nat) :
    Sound mode (item :: placed) (f.write gap item.1 item.2) := by
  have hwritten : (f.write gap item.1 item.2).written.reverse
      = f.written.reverse ++ [item.1.reverse] := List.reverse_cons
  have hplaced := placed_behind mode f.written.reverse item.1.reverse
  rw [← hwritten, ← h.used_eq] at hplaced
  refine h.extend hwritten rfl rfl ?_ hplaced ?_ ?_
  · intro string hstring
    exact List.mem_singleton.mp hstring
  · rw [hwritten, List.flatMap_append, List.length_append, ← h.used_eq, List.flatMap_singleton, hgap,
      List.length_reverse]
    exact Nat.add_assoc _ _ _
  · show f.used + item.1.length + gap ≤ f.used + (item.1.length + 1)
    omega

theorem Sound.place (hgap : ∀ string, (writtenBytes mode string).length = string.length + gap)
    (hone : gap ≤ 1) (h : Sound mode placed f) (item : List UInt8 × Nat) :
    Sound mode (item :: placed) (f.place gap item) := by
  rw [Filling.place]
  cases hlast : f.last with
  | none => exact h.write hgap hone item
  | some last =>
    obtain ⟨r, position⟩ := last
    simp only []
    by_cases hfront : item.1.isPrefixOf r = true
    · obtain ⟨more, rfl⟩ := List.isPrefixOf_iff_prefix.mp hfront
      have hat := h.last _ _ hlast
      rw [List.reverse_append] at hat
      have hinside := hat.inside
      rw [if_pos hfront, List.length_append, Nat.add_sub_cancel_left]
      rw [List.length_reverse] at hinside
      have hwritten : f.written.reverse = f.written.reverse ++ [] := (List.append_nil _).symm
      refine h.extend hwritten rfl rfl ?_ hinside h.used_eq (Nat.le_add_right _ _)
      intro string hstring
      cases hstring
    · rw [if_neg hfront]
      exact h.write hgap hone item

theorem Sound.foldl (hgap : ∀ string, (writtenBytes mode string).length = string.length + gap)
    (hone : gap ≤ 1) {items placed : List (List UInt8 × Nat)} {f : Filling}
    (h : Sound mode placed f) :
    Sound mode (items.reverse ++ placed) (items.foldl (Filling.place gap) f) := by
  induction items generalizing placed f with
  | nil => exact h
  | cons item items ih =>
    rw [List.foldl_cons, List.reverse_cons, List.append_assoc]
    exact ih (h.place hgap hone item)

/-! ## Placing as far as there is room -/

theorem used_le_place (gap : Nat) (f : Filling) (item : List UInt8 × Nat) :
    f.used ≤ (f.place gap item).used := by
  rw [place]
  split
  · exact Nat.le_add_right_of_le (Nat.le_add_right _ _)
  · split
    · exact Nat.le_refl _
    · exact Nat.le_add_right_of_le (Nat.le_add_right _ _)

theorem used_le_foldl (gap : Nat) (items : List (List UInt8 × Nat)) (f : Filling) :
    f.used ≤ (items.foldl (place gap) f).used := by
  induction items generalizing f with
  | nil => exact Nat.le_refl _
  | cons item items ih => exact Nat.le_trans (used_le_place gap f item) (ih _)

theorem place?_empty (gap : Nat) (f : Filling) (index : Nat) :
    f.place? gap ([], index) = .error .emptySuffix :=
  rfl

theorem place?_of_lt {item : List UInt8 × Nat} (hne : item.1 ≠ [])
    (hlt : (f.place gap item).used < UInt32.size) : f.place? gap item = .ok (f.place gap item) := by
  rw [place?, if_neg (by simpa using hne), if_pos hlt]

theorem place?_of_le {item : List UInt8 × Nat} (hne : item.1 ≠ [])
    (hle : UInt32.size ≤ (f.place gap item).used) : f.place? gap item = .error .tailTooLong := by
  rw [place?, if_neg (by simpa using hne), if_neg (Nat.not_lt.mpr hle)]

/-- Strings that are not empty are all placed if there is room for them. -/
theorem foldlM_place? {items : List (List UInt8 × Nat)} {f : Filling}
    (hne : ∀ item ∈ items, item.1 ≠ [])
    (hlt : (items.foldl (place gap) f).used < UInt32.size) :
    items.foldlM (place? gap) f = .ok (items.foldl (place gap) f) := by
  induction items generalizing f with
  | nil => rfl
  | cons item items ih =>
    have hroom := Nat.lt_of_le_of_lt (used_le_foldl gap items (f.place gap item)) hlt
    rw [List.foldlM_cons, place?_of_lt (hne item List.mem_cons_self) hroom]
    exact ih (fun other hother => hne other (List.mem_cons_of_mem _ hother)) hlt

/-- An empty string among them is refused if there would be room for all. -/
theorem foldlM_place?_of_empty {items : List (List UInt8 × Nat)} {f : Filling}
    (hempty : ∃ item ∈ items, item.1 = [])
    (hlt : (items.foldl (place gap) f).used < UInt32.size) :
    items.foldlM (place? gap) f = .error .emptySuffix := by
  induction items generalizing f with
  | nil =>
    obtain ⟨item, hitem, _⟩ := hempty
    cases hitem
  | cons item items ih =>
    obtain ⟨string, index⟩ := item
    rw [List.foldlM_cons]
    by_cases hstring : string = []
    · rw [hstring, place?_empty]
      rfl
    · have hroom := Nat.lt_of_le_of_lt (used_le_foldl gap items (f.place gap (string, index))) hlt
      rw [place?_of_lt hstring hroom]
      refine ih ?_ hlt
      obtain ⟨other, hother, hnil⟩ := hempty
      rcases List.mem_cons.mp hother with rfl | hother
      · exact absurd hnil hstring
      · exact ⟨other, hother, hnil⟩

/-- Strings that are not empty are refused if there is no room for all of them. -/
theorem foldlM_place?_of_long {items : List (List UInt8 × Nat)} {f : Filling}
    (hne : ∀ item ∈ items, item.1 ≠ []) (hf : f.used < UInt32.size)
    (hle : UInt32.size ≤ (items.foldl (place gap) f).used) :
    items.foldlM (place? gap) f = .error .tailTooLong := by
  induction items generalizing f with
  | nil => exact absurd hf (Nat.not_lt.mpr hle)
  | cons item items ih =>
    have hitem := hne item List.mem_cons_self
    rw [List.foldlM_cons]
    by_cases hroom : (f.place gap item).used < UInt32.size
    · rw [place?_of_lt hitem hroom]
      exact ih (fun other hother => hne other (List.mem_cons_of_mem _ hother)) hroom hle
    · rw [place?_of_le hitem (Nat.le_of_not_lt hroom)]
      rfl

/-- What was placed had no empty string in it. -/
theorem of_foldlM_place? {items : List (List UInt8 × Nat)} {f f' : Filling}
    (h : items.foldlM (place? gap) f = .ok f') :
    (∀ item ∈ items, item.1 ≠ []) ∧ f' = items.foldl (place gap) f := by
  induction items generalizing f with
  | nil => exact ⟨nofun, (Except.ok.inj h).symm⟩
  | cons item items ih =>
    obtain ⟨string, index⟩ := item
    rw [List.foldlM_cons] at h
    by_cases hstring : string = []
    · rw [hstring, place?_empty] at h
      cases h
    · by_cases hroom : (f.place gap (string, index)).used < UInt32.size
      · rw [place?_of_lt hstring hroom] at h
        obtain ⟨hne, hf'⟩ := ih h
        exact ⟨List.forall_mem_cons.mpr ⟨hstring, hne⟩, hf'⟩
      · rw [place?_of_le hstring (Nat.le_of_not_lt hroom)] at h
        cases h

end Filling

/-! ## The tail of a list of strings -/

section

variable {written : List (List UInt8)} {string : List UInt8} {position : Nat}

/-- The tail that holds the written strings. -/
def ofWritten (mode : TailMode) (written : List (List UInt8)) : Tail where
  bytes := (written.flatMap (writtenBytes mode)).toArray
  endFlags := .ofBits (written.flatMap (writtenFlags mode)) false false

theorem holds_ofWritten_text (h : Placed .text written string position) (hne : string ≠ [])
    (hnul : ∀ w ∈ written, 0 ∉ w) : (ofWritten .text written).Holds position string := by
  have hflags : ∀ ws : List (List UInt8), ws.flatMap (writtenFlags .text) = [] := by
    intro ws
    rw [List.flatMap_eq_nil_iff]
    intro w _
    rfl
  have hmode : (ofWritten .text written).mode = .text := by
    rw [mode, ofWritten, hflags]
    rfl
  obtain ⟨cut', hmem⟩ := h.mem
  obtain ⟨front, cut, back, hwritten, rfl⟩ := h
  have hbytes : (ofWritten .text written).bytes.toList
      = (front.flatMap (writtenBytes .text) ++ cut) ++ string
        ++ 0 :: back.flatMap (writtenBytes .text) := by
    rw [ofWritten, hwritten]
    simp [writtenBytes]
  have hholds := holds_of_text hmode hbytes hne (by
    intro hzero
    exact hnul _ hmem (List.mem_append_right cut' hzero))
  rwa [List.length_append] at hholds

theorem writtenFlags_getElem? {j : Nat} (h : j < string.length) :
    (writtenFlags .binary string)[j]? = some (decide (j + 1 = string.length)) := by
  rw [writtenFlags]
  by_cases hlast : j + 1 = string.length
  · rw [List.getElem?_append_right (by rw [List.length_replicate]; omega), List.length_replicate]
    have hzero : j - (string.length - 1) = 0 := by omega
    rw [hzero, decide_eq_true hlast]
    rfl
  · rw [List.getElem?_append_left (by rw [List.length_replicate]; omega),
      List.getElem?_replicate, if_pos (by omega), decide_eq_false hlast]

theorem length_writtenFlags (hne : string ≠ []) :
    (writtenFlags .binary string).length = string.length := by
  have hpos := List.length_pos_iff.mpr hne
  rw [writtenFlags, List.length_append, List.length_replicate, List.length_singleton]
  omega

theorem length_flatMap_writtenFlags {written : List (List UInt8)} (h : ∀ w ∈ written, w ≠ []) :
    (written.flatMap (writtenFlags .binary)).length
      = (written.flatMap (writtenBytes .binary)).length := by
  induction written with
  | nil => rfl
  | cons w written ih =>
    rw [List.flatMap_cons, List.flatMap_cons, List.length_append, List.length_append,
      ih fun x hx => h x (List.mem_cons_of_mem w hx), length_writtenFlags (h w List.mem_cons_self)]
    rfl

theorem holds_ofWritten_binary (h : Placed .binary written string position) (hne : string ≠ [])
    (hall : ∀ w ∈ written, w ≠ []) : (ofWritten .binary written).Holds position string := by
  have hlength := h.add_length_le
  have hpos := List.length_pos_iff.mpr hne
  have hmode : (ofWritten .binary written).mode = .binary := by
    rw [mode, if_neg]
    rw [ofWritten, BitVector.size_ofBits, length_flatMap_writtenFlags hall]
    omega
  obtain ⟨front, cut, back, hwritten, rfl⟩ := h
  have hbytes : (ofWritten .binary written).bytes.toList
      = (front.flatMap (writtenBytes .binary) ++ cut) ++ string
        ++ back.flatMap (writtenBytes .binary) := by
    rw [ofWritten, hwritten]
    simp [writtenBytes]
  have hholds := holds_of_binary hmode hbytes hne (by
    intro j hj
    have hfront : (front.flatMap (writtenFlags .binary)).length
        = (front.flatMap (writtenBytes .binary)).length := by
      apply length_flatMap_writtenFlags
      intro w hw
      exact hall w (by rw [hwritten]; exact List.mem_append_left _ hw)
    have hcut : cut ++ string ≠ [] := by simp [hne]
    have hflag : cut.length + j < (cut ++ string).length := by
      rw [List.length_append]
      omega
    rw [ofWritten, BitVector.get?_ofBits, hwritten, List.flatMap_append, List.flatMap_cons,
      List.length_append, ← hfront, Nat.add_assoc, List.getElem?_append_right (by omega),
      Nat.add_sub_cancel_left,
      List.getElem?_append_left (by rw [length_writtenFlags hcut]; exact hflag),
      writtenFlags_getElem? hflag, List.length_append]
    simp [Nat.add_assoc])
  rwa [List.length_append] at hholds

end

/-- The mode decides whether a byte stands between the strings. -/
def gapOf : TailMode → Nat
  | .text => 1
  | .binary => 0

theorem length_writtenBytes (mode : TailMode) (string : List UInt8) :
    (writtenBytes mode string).length = string.length + gapOf mode := by
  cases mode with
  | text => rw [writtenBytes, List.length_append]; rfl
  | binary => rfl

theorem gapOf_le (mode : TailMode) : gapOf mode ≤ 1 := by
  cases mode <;> decide

/-- The reversed strings in the order in which they are placed, with their indices. -/
def itemsOf (strings : List (List UInt8)) : List (List UInt8 × Nat) :=
  (Sorting.sortStrings (·.1) (strings.zipIdx.map fun (s, i) => (s.reverse, i))).reverse

theorem itemsOf_perm (strings : List (List UInt8)) :
    (itemsOf strings).Perm (strings.zipIdx.map fun (s, i) => (s.reverse, i)) :=
  (List.reverse_perm _).trans (Sorting.sortStrings_perm _ _)

theorem mem_itemsOf {strings : List (List UInt8)} {item : List UInt8 × Nat} :
    item ∈ itemsOf strings ↔ strings[item.2]? = some item.1.reverse := by
  rw [(itemsOf_perm strings).mem_iff, List.mem_map]
  constructor
  · rintro ⟨⟨s, i⟩, hmem, rfl⟩
    rw [List.reverse_reverse]
    exact List.mem_zipIdx_iff_getElem?.mp hmem
  · intro h
    refine ⟨(item.1.reverse, item.2), List.mem_zipIdx_iff_getElem?.mpr h, ?_⟩
    simp only [List.reverse_reverse]

theorem sum_itemsOf (strings : List (List UInt8)) :
    ((itemsOf strings).map (·.1.length + 1)).sum = (strings.map (·.length + 1)).sum := by
  rw [((itemsOf_perm strings).map fun item => item.1.length + 1).sum_nat, List.map_map]
  calc (strings.zipIdx.map fun x => x.1.reverse.length + 1).sum
      = ((strings.zipIdx.map Prod.fst).map (·.length + 1)).sum := by
        rw [List.map_map]
        simp only [List.length_reverse]
        rfl
    _ = (strings.map (·.length + 1)).sum := by rw [List.zipIdx_map_fst]

/-- The tail after all strings were placed. -/
def filled (mode : TailMode) (strings : List (List UInt8)) : Filling :=
  (itemsOf strings).foldl (Filling.place (gapOf mode)) {}

theorem sound_filled (mode : TailMode) (strings : List (List UInt8)) :
    Filling.Sound mode (itemsOf strings).reverse (filled mode strings) := by
  have h : Filling.Sound mode ((itemsOf strings).reverse ++ []) (filled mode strings) :=
    Filling.Sound.foldl (length_writtenBytes mode) (gapOf_le mode) (Filling.sound_empty mode)
  rwa [List.append_nil] at h

/-- The tail is what was filled, if that is possible and its end flags can be counted. -/
theorem ofStrings_eq (mode : TailMode) (strings : List (List UInt8)) :
    ofStrings mode strings
      = ((itemsOf strings).foldlM (Filling.place? (gapOf (modeFor mode strings))) {}).bind
        fun f => (BitVector.checkSize
            (f.written.reverse.flatMap (writtenFlags (modeFor mode strings))).length).bind
          fun _ => .ok (ofWritten (modeFor mode strings) f.written.reverse,
            (f.positions.foldl
              (fun places (index, position) => places.setIfInBounds index position)
              (Array.replicate strings.length 0)).toList) :=
  rfl

/-- There are no more end flags than bytes. -/
theorem length_flags_le {mode : TailMode} {strings : List (List UInt8)}
    (h : ∀ string ∈ strings, string ≠ []) :
    ((filled mode strings).written.reverse.flatMap (writtenFlags mode)).length
      ≤ (filled mode strings).used := by
  have hsound := sound_filled mode strings
  have hwritten : ∀ w ∈ (filled mode strings).written.reverse, w ≠ [] := by
    intro w hw
    obtain ⟨item, hitem, rfl⟩ := hsound.mem_written w (List.mem_reverse.mp hw)
    exact h _ (List.mem_of_getElem? (mem_itemsOf.mp (List.mem_reverse.mp hitem)))
  rw [hsound.used_eq]
  cases mode with
  | text =>
    have hnone : ∀ ws : List (List UInt8), ws.flatMap (writtenFlags .text) = [] :=
      fun _ => List.flatMap_eq_nil_iff.mpr fun _ _ => rfl
    rw [hnone]
    exact Nat.zero_le _
  | binary => exact Nat.le_of_eq (length_flatMap_writtenFlags hwritten)

theorem ne_nil_of_mem_itemsOf {strings : List (List UInt8)} (h : ∀ string ∈ strings, string ≠ []) :
    ∀ item ∈ itemsOf strings, item.1 ≠ [] := by
  rintro item hitem hnil
  refine h _ (List.mem_of_getElem? (mem_itemsOf.mp hitem)) ?_
  rw [hnil]
  rfl

/-- Strings that are not empty are stored if there is room for what is written of them. -/
theorem ofStrings_of_lt (mode : TailMode) {strings : List (List UInt8)}
    (h : ∀ string ∈ strings, string ≠ [])
    (hlt : (filled (modeFor mode strings) strings).used < UInt32.size) :
    ofStrings mode strings = .ok
      (ofWritten (modeFor mode strings) (filled (modeFor mode strings) strings).written.reverse,
        ((filled (modeFor mode strings) strings).positions.foldl
          (fun places (index, position) => places.setIfInBounds index position)
          (Array.replicate strings.length 0)).toList) := by
  have hflags := BitVector.checkSize_of_lt (Nat.lt_of_le_of_lt (length_flags_le h) hlt)
  have hplaced : (itemsOf strings).foldlM (Filling.place? (gapOf (modeFor mode strings))) {}
      = .ok (filled (modeFor mode strings) strings) :=
    Filling.foldlM_place? (ne_nil_of_mem_itemsOf h) hlt
  rw [ofStrings_eq, hplaced, Except.bind, hflags]
  rfl

/-- A tail that was made is what was filled, and no string was empty. -/
theorem of_ofStrings {mode : TailMode} {strings : List (List UInt8)} {tail : Tail}
    {positions : List Nat} (h : ofStrings mode strings = .ok (tail, positions)) :
    (∀ string ∈ strings, string ≠ [])
      ∧ tail = ofWritten (modeFor mode strings)
        (filled (modeFor mode strings) strings).written.reverse := by
  rw [ofStrings_eq] at h
  cases hplaced : (itemsOf strings).foldlM (Filling.place? (gapOf (modeFor mode strings))) {} with
  | error fault => rw [hplaced] at h; cases h
  | ok f =>
    obtain ⟨hne, rfl⟩ := Filling.of_foldlM_place? hplaced
    rw [hplaced, Except.bind, BitVector.checkSize] at h
    split at h
    · obtain ⟨rfl, _⟩ := Prod.mk.inj (Except.ok.inj h)
      refine ⟨?_, rfl⟩
      intro string hstring hnil
      obtain ⟨i, hi⟩ := List.mem_iff_getElem?.mp hstring
      refine hne ([], i) (mem_itemsOf.mpr ?_) rfl
      rw [hi, hnil]
      rfl
    · cases h

/-- A string that was placed can be read from the tail. -/
theorem holds_of_placed (mode : TailMode) {strings : List (List UInt8)} {string : List UInt8}
    {position : Nat} (h : ∀ string ∈ strings, string ≠ []) (hne : string ≠ [])
    (hplaced : Placed (modeFor mode strings)
      (filled (modeFor mode strings) strings).written.reverse string position) :
    (ofWritten (modeFor mode strings)
      (filled (modeFor mode strings) strings).written.reverse).Holds position string := by
  have hmem : ∀ w ∈ (filled (modeFor mode strings) strings).written.reverse, w ∈ strings := by
    intro w hw
    obtain ⟨item, hitem, rfl⟩ :=
      (sound_filled (modeFor mode strings) strings).mem_written w (List.mem_reverse.mp hw)
    exact List.mem_of_getElem? (mem_itemsOf.mp (List.mem_reverse.mp hitem))
  cases hmode : modeFor mode strings with
  | text =>
    rw [hmode] at hplaced hmem
    refine holds_ofWritten_text hplaced hne ?_
    intro w hw hzero
    have hany : strings.any (·.contains 0) = true :=
      List.any_eq_true.mpr ⟨w, hmem w hw, List.contains_iff_mem.mpr hzero⟩
    rw [modeFor, if_pos hany] at hmode
    cases hmode
  | binary =>
    rw [hmode] at hplaced hmem
    refine holds_ofWritten_binary hplaced hne ?_
    intro w hw
    exact h w (hmem w hw)

/-- What is written takes no more room than all strings with a byte behind each. -/
theorem used_filled_le (mode : TailMode) (strings : List (List UInt8)) :
    (filled mode strings).used ≤ (strings.map (·.length + 1)).sum := by
  have hused := (sound_filled mode strings).used_le
  rwa [((List.reverse_perm _).map _).sum_nat, sum_itemsOf] at hused

/-- Strings that are not empty are stored if there is room for what is written of them, and each of
them stands at its position. -/
theorem ofStrings_spec (mode : TailMode) {strings : List (List UInt8)}
    (h : ∀ string ∈ strings, string ≠ [])
    (hlt : (filled (modeFor mode strings) strings).used < UInt32.size) :
    ∃ (tail : Tail) (positions : List Nat), ofStrings mode strings = .ok (tail, positions)
      ∧ ∀ (i : Nat) (string : List UInt8), strings[i]? = some string →
        ∃ position, positions[i]? = some position ∧ tail.Holds position string
          ∧ position < (strings.map (·.length + 1)).sum := by
  have hused := used_filled_le (modeFor mode strings) strings
  refine ⟨_, _, ofStrings_of_lt mode h hlt, ?_⟩
  intro i string hstring
  have hsound := sound_filled (modeFor mode strings) strings
  have hitem : (string.reverse, i) ∈ itemsOf strings := by
    rw [mem_itemsOf, List.reverse_reverse]
    exact hstring
  obtain ⟨p, hp⟩ := hsound.complete _ (List.mem_reverse.mpr hitem)
  have hall : ∀ x ∈ (filled (modeFor mode strings) strings).positions,
      ∀ string, strings[x.1]? = some string → Placed (modeFor mode strings)
        (filled (modeFor mode strings) strings).written.reverse string x.2 := by
    intro x hx string hget
    obtain ⟨r, hr, hplaced⟩ := hsound.positions x hx
    rw [mem_itemsOf.mp (List.mem_reverse.mp hr)] at hget
    rwa [← Option.some.inj hget]
  have hsize : i < (Array.replicate strings.length 0).size := by
    rw [Array.size_replicate]
    exact (List.getElem?_eq_some_iff.mp hstring).1
  obtain ⟨position, hget, hat⟩ := foldl_set_getElem? (fun i position => ∀ string,
    strings[i]? = some string → Placed (modeFor mode strings)
      (filled (modeFor mode strings) strings).written.reverse string position) hall hsize hp
  have hplaced := hat string hstring
  have hne := h string (List.mem_of_getElem? hstring)
  refine ⟨position, by rw [Array.getElem?_toList, hget], holds_of_placed mode h hne hplaced, ?_⟩
  have hlength := hplaced.add_length_le
  have hpos := List.length_pos_iff.mpr hne
  rw [← hsound.used_eq] at hlength
  omega

end Lexicon.Tail
