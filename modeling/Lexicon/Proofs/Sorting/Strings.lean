/-
Lexicon.Proofs.Sorting.Strings — sorting keeps all items and puts their strings in
order.

The items of a split carry what is left of their strings behind a common prefix,
and the split at the pivot forgets that prefix. `sortItems_sorted` therefore speaks
of the whole strings: it follows one prefix through all splits. The size that goes
down from split to split is the number of bytes left with one more for each item;
the pivot is the label of an item, so both outer parts lose that item and the middle
part loses a byte of each. `sortStrings_perm` and `sortStrings_sorted` are the result. In a
sorted list equal strings stand together, so `distinct` counts the different ones
(`distinct_eq_card`).
-/
import Lexicon.Proofs.Sorting.Insertion
import Lexicon.Proofs.Sorting.Partition
import Lexicon.Sorting.Strings
import Mathlib.Data.Finset.Card
import Mathlib.Data.List.SplitBy

namespace Lexicon.Sorting

/-! ## The order of strings -/

theorem bytesLe_refl (s : List UInt8) : bytesLe s s = true := by
  induction s with
  | nil => rfl
  | cons b s ih => simp [bytesLe, ih]

theorem bytesLe_cons {a b : UInt8} {s t : List UInt8} :
    bytesLe (a :: s) (b :: t) = true ↔ a < b ∨ a = b ∧ bytesLe s t = true := by
  simp [bytesLe]

theorem bytesLe_total : ∀ (s t : List UInt8), bytesLe s t = true ∨ bytesLe t s = true
  | [], t => Or.inl rfl
  | a :: s, [] => Or.inr rfl
  | a :: s, b :: t => by
      rw [bytesLe_cons, bytesLe_cons]
      by_cases h : a = b
      · rcases bytesLe_total s t with hs | ht
        · exact Or.inl (Or.inr ⟨h, hs⟩)
        · exact Or.inr (Or.inr ⟨h.symm, ht⟩)
      · rcases UInt8.lt_or_lt_of_ne h with h | h
        · exact Or.inl (Or.inl h)
        · exact Or.inr (Or.inl h)

theorem bytesLe_trans : ∀ (s t u : List UInt8), bytesLe s t = true → bytesLe t u = true →
    bytesLe s u = true
  | [], _, _, _, _ => rfl
  | a :: s, b :: t, c :: u, hst, htu => by
      rw [bytesLe_cons] at hst htu ⊢
      rcases hst with hab | ⟨rfl, hs⟩
      · rcases htu with hbc | ⟨rfl, _⟩
        · exact Or.inl (UInt8.lt_trans hab hbc)
        · exact Or.inl hab
      · rcases htu with hbc | ⟨rfl, ht⟩
        · exact Or.inl hbc
        · exact Or.inr ⟨rfl, bytesLe_trans s t u hs ht⟩

theorem bytesLe_antisymm : ∀ {s t : List UInt8}, bytesLe s t = true → bytesLe t s = true → s = t
  | [], [], _, _ => rfl
  | [], _ :: _, _, h => Bool.noConfusion h
  | _ :: _, [], h, _ => Bool.noConfusion h
  | a :: s, b :: t, h, h' => by
      rw [bytesLe_cons] at h h'
      rcases h with hlt | ⟨rfl, hst⟩
      · rcases h' with hgt | ⟨rfl, _⟩
        · exact absurd hgt (UInt8.lt_asymm hlt)
        · exact absurd hlt (UInt8.lt_irrefl b)
      · have hts := (h'.resolve_left (UInt8.lt_irrefl a)).2
        rw [bytesLe_antisymm hst hts]

/-- The order of strings is that of lists of bytes. -/
theorem bytesLe_iff_le : ∀ {s t : List UInt8}, bytesLe s t = true ↔ s ≤ t
  | [], t => iff_of_true rfl (List.nil_le t)
  | a :: s, [] => iff_of_false Bool.false_ne_true (List.not_le.mpr (List.nil_lt_cons a s))
  | a :: s, b :: t => by rw [bytesLe_cons, List.cons_le_cons_iff, bytesLe_iff_le]

/-- A common prefix does not matter. -/
theorem bytesLe_append_left (front s t : List UInt8) :
    bytesLe (front ++ s) (front ++ t) = bytesLe s t := by
  induction front with
  | nil => rfl
  | cons b front ih => simp [bytesLe, ih]

/-- Labels alone decide unless they are equal. -/
theorem bytesLe_of_label_lt : ∀ {s t : List UInt8}, label s < label t → bytesLe s t = true
  | [], _, _ => rfl
  | a :: s, [], h => by simp [label] at h
  | a :: s, b :: t, h => by
      rw [bytesLe_cons]
      refine Or.inl (UInt8.lt_iff_toNat_lt.mpr ?_)
      simp only [label] at h
      omega

theorem label_le_of_bytesLe : ∀ {s t : List UInt8}, bytesLe s t = true → label s ≤ label t
  | [], t, _ => by simp [label]
  | a :: s, b :: t, h => by
      rw [bytesLe_cons] at h
      simp only [label]
      rcases h with h | ⟨rfl, _⟩
      · have hlt := UInt8.lt_iff_toNat_lt.mp h
        omega
      · exact Nat.le_refl _

theorem eq_nil_of_label {s : List UInt8} (h : label s = 0) : s = [] := by
  cases s with
  | nil => rfl
  | cons b s => cases h

/-- Strings of one label other than 0 start with one byte. -/
theorem exists_cons_of_label {p : Nat} (hp : p ≠ 0) :
    ∃ b : UInt8, ∀ s : List UInt8, label s = p → s = b :: s.tail := by
  refine ⟨(p - 1).toUInt8, ?_⟩
  intro s hs
  cases s with
  | nil => exact absurd hs.symm hp
  | cons a s =>
    simp only [label] at hs
    have ha : (p - 1).toUInt8 = a := by
      rw [← hs, Nat.add_sub_cancel, Nat.toUInt8_eq, UInt8.ofNat_toNat]
    rw [ha, List.tail_cons]

/-! ## The pivot -/

theorem median_eq (x y z : Nat) : median x y z = x ∨ median x y z = y ∨ median x y z = z := by
  unfold median
  split
  · split
    · exact Or.inr (Or.inl rfl)
    · split
      · exact Or.inr (Or.inr rfl)
      · exact Or.inl rfl
  · split
    · exact Or.inl rfl
    · split
      · exact Or.inr (Or.inr rfl)
      · exact Or.inr (Or.inl rfl)

variable {α : Type}

/-- The pivot is the label of an item. -/
theorem exists_label_eq_pivot {xs : List (List UInt8 × α)} (h : xs ≠ []) :
    ∃ x ∈ xs, label x.1 = pivot xs := by
  have hpos : 0 < xs.length := List.length_pos_iff.mpr h
  have hat : ∀ i, i < xs.length → ∃ x ∈ xs, label x.1 = (xs[i]?).elim 0 (label ·.1) := by
    intro i hi
    exact ⟨xs[i], List.getElem_mem hi, by rw [List.getElem?_eq_getElem hi]; rfl⟩
  unfold pivot
  rcases median_eq ((xs[0]?).elim 0 (label ·.1)) ((xs[xs.length / 2]?).elim 0 (label ·.1))
    ((xs[xs.length - 1]?).elim 0 (label ·.1)) with hm | hm | hm
  all_goals rw [hm]
  · exact hat 0 hpos
  · exact hat _ (by omega)
  · exact hat _ (by omega)

/-! ## Sorting items -/

/-- What is left to read of some items, with one more for each of them. -/
def bulk (xs : List (List UInt8 × α)) : Nat :=
  sumOf (xs.map fun x => x.1.length + 1)

theorem bulk_append (xs ys : List (List UInt8 × α)) : bulk (xs ++ ys) = bulk xs + bulk ys := by
  rw [bulk, List.map_append]
  exact List.sum_append

theorem bulk_perm {xs ys : List (List UInt8 × α)} (h : xs.Perm ys) : bulk xs = bulk ys :=
  (h.map _).sum_nat

theorem length_le_bulk (xs : List (List UInt8 × α)) : xs.length ≤ bulk xs := by
  induction xs with
  | nil => exact Nat.le_refl 0
  | cons x xs ih =>
    have hcons : bulk (x :: xs) = x.1.length + 1 + bulk xs := rfl
    rw [hcons, List.length_cons]
    omega

/-- Reading one byte of each string takes one off for each item. -/
theorem bulk_map_tail {b : UInt8} {xs : List (List UInt8 × α)}
    (h : ∀ x ∈ xs, x.1 = b :: x.1.tail) :
    bulk (xs.map fun x => (x.1.tail, x.2)) + xs.length = bulk xs := by
  induction xs with
  | nil => rfl
  | cons x xs ih =>
    have hrest := ih fun y hy => h y (List.mem_cons_of_mem x hy)
    have hlength : x.1.length = x.1.tail.length + 1 := congrArg List.length (h x List.mem_cons_self)
    have hcons : bulk (x :: xs) = x.1.length + 1 + bulk xs := rfl
    have hmap : bulk ((x :: xs).map fun x => (x.1.tail, x.2))
        = x.1.tail.length + 1 + bulk (xs.map fun x => (x.1.tail, x.2)) := rfl
    rw [hcons, hmap, hlength, List.length_cons]
    omega

/-- The parts of a split. -/
def splitAt (p : Nat) (xs : List (List UInt8 × α)) : Parts (List UInt8 × α) :=
  partition (fun x => compare (label x.1) p) xs

section Split

variable (p : Nat) (xs : List (List UInt8 × α))

theorem splitAt_perm :
    ((splitAt p xs).below ++ (splitAt p xs).same ++ (splitAt p xs).above).Perm xs :=
  partition_perm _ xs

theorem label_lt_of_below : ∀ x ∈ (splitAt p xs).below, label x.1 < p :=
  fun x hx => Nat.compare_eq_lt.mp (partition_below _ xs x hx)

theorem label_eq_of_same : ∀ x ∈ (splitAt p xs).same, label x.1 = p :=
  fun x hx => Nat.compare_eq_eq.mp (partition_same _ xs x hx)

theorem label_gt_of_above : ∀ x ∈ (splitAt p xs).above, p < label x.1 :=
  fun x hx => Nat.compare_eq_gt.mp (partition_above _ xs x hx)

end Split

/-- The middle part of a split, sorted by what follows its common byte. -/
def sortSame (fuel p : Nat) (same : List (List UInt8 × α)) : List (List UInt8 × α) :=
  if p = 0 then same else sortItems fuel (same.map fun x => (x.1.tail, x.2))

/-- A list of more than ten items is split and its parts are sorted. -/
theorem sortItems_of_long {fuel : Nat} {xs : List (List UInt8 × α)} (h : ¬xs.length ≤ 10) :
    sortItems (fuel + 1) xs
      = sortItems fuel (splitAt (pivot xs) xs).below
        ++ sortSame fuel (pivot xs) (splitAt (pivot xs) xs).same
        ++ sortItems fuel (splitAt (pivot xs) xs).above := by
  rw [sortItems, if_neg h]
  rfl

/-- Sorting rearranges the items. -/
theorem sortItems_perm : ∀ (fuel : Nat) (xs : List (List UInt8 × α)),
    ((sortItems fuel xs).map (·.2)).Perm (xs.map (·.2))
  | 0, xs => List.Perm.refl _
  | fuel + 1, xs => by
      by_cases h : xs.length ≤ 10
      · rw [sortItems, if_pos h]
        exact (insertionSort_perm _ xs).map _
      · have hsame : ((sortSame fuel (pivot xs) (splitAt (pivot xs) xs).same).map (·.2)).Perm
            ((splitAt (pivot xs) xs).same.map (·.2)) := by
          unfold sortSame
          split
          · exact List.Perm.refl _
          · have htail := sortItems_perm fuel
              ((splitAt (pivot xs) xs).same.map fun x => (x.1.tail, x.2))
            rwa [List.map_map] at htail
        have hall := (splitAt_perm (pivot xs) xs).map (·.2)
        rw [List.map_append, List.map_append] at hall
        rw [sortItems_of_long h, List.map_append, List.map_append]
        exact (((sortItems_perm fuel _).append hsame).append (sortItems_perm fuel _)).trans hall

theorem sortSame_perm (fuel p : Nat) (same : List (List UInt8 × α)) :
    ((sortSame fuel p same).map (·.2)).Perm (same.map (·.2)) := by
  unfold sortSame
  split
  · exact List.Perm.refl _
  · have htail := sortItems_perm fuel (same.map fun x => (x.1.tail, x.2))
    rwa [List.map_map] at htail

/-- Each item carries what its string has behind a common prefix. -/
def Carries (string : α → List UInt8) (front : List UInt8) (xs : List (List UInt8 × α)) : Prop :=
  ∀ x ∈ xs, string x.2 = front ++ x.1

theorem Carries.map_tail {string : α → List UInt8} {front : List UInt8} {b : UInt8}
    {xs : List (List UInt8 × α)} (hxs : Carries string front xs)
    (h : ∀ x ∈ xs, x.1 = b :: x.1.tail) :
    Carries string (front ++ [b]) (xs.map fun x => (x.1.tail, x.2)) := by
  intro y hy
  obtain ⟨x, hx, rfl⟩ := List.mem_map.mp hy
  rw [hxs x hx, List.append_assoc, List.singleton_append, ← h x hx]

/-- The strings of some items are in order. -/
def InOrder (string : α → List UInt8) (xs : List (List UInt8 × α)) : Prop :=
  (xs.map (·.2)).Pairwise fun a b => bytesLe (string a) (string b) = true

section Sorted

variable {string : α → List UInt8} {front : List UInt8} {xs ys : List (List UInt8 × α)}

/-- Parts whose labels are apart stay in order one behind the other, however each is arranged. -/
theorem bytesLe_of_label_lt_of_perm {xs' ys' : List (List UInt8 × α)}
    (hx : (xs'.map (·.2)).Perm (xs.map (·.2))) (hy : (ys'.map (·.2)).Perm (ys.map (·.2)))
    (hxs : Carries string front xs) (hys : Carries string front ys)
    (h : ∀ x ∈ xs, ∀ y ∈ ys, label x.1 < label y.1) :
    ∀ a ∈ xs'.map (·.2), ∀ b ∈ ys'.map (·.2), bytesLe (string a) (string b) = true := by
  intro a ha b hb
  obtain ⟨x, hx, rfl⟩ := List.mem_map.mp (hx.mem_iff.mp ha)
  obtain ⟨y, hy, rfl⟩ := List.mem_map.mp (hy.mem_iff.mp hb)
  rw [hxs x hx, hys y hy, bytesLe_append_left]
  exact bytesLe_of_label_lt (h x hx y hy)

theorem inOrder_insertionSort (hxs : Carries string front xs) :
    InOrder string (insertionSort (fun x y => bytesLe x.1 y.1) xs) := by
  have hsorted : (insertionSort (fun x y => bytesLe x.1 y.1) xs).Pairwise
      fun x y => bytesLe x.1 y.1 = true :=
    insertionSort_pairwise (fun x y => bytesLe_total x.1 y.1)
      (fun x y z => bytesLe_trans x.1 y.1 z.1) xs
  have hmem := fun x => (insertionSort_perm (fun x y => bytesLe x.1 y.1) xs).mem_iff (a := x)
  unfold InOrder
  rw [List.pairwise_map]
  refine hsorted.imp_of_mem ?_
  intro a b ha hb hab
  rwa [hxs a ((hmem a).mp ha), hxs b ((hmem b).mp hb), bytesLe_append_left]

/-- The middle part is in order if strings that are shorter by one byte are. -/
theorem inOrder_sortSame {fuel p : Nat} (hxs : Carries string front xs)
    (hlabel : ∀ x ∈ xs, label x.1 = p)
    (hsorted : ∀ (more : List UInt8) (ys : List (List UInt8 × α)), bulk ys + xs.length ≤ bulk xs →
      Carries string more ys → InOrder string (sortItems fuel ys)) :
    InOrder string (sortSame fuel p xs) := by
  unfold sortSame
  split
  · rename_i hp
    unfold InOrder
    rw [List.pairwise_map]
    refine List.pairwise_of_forall_mem_list ?_
    intro a ha b hb
    have hnil : ∀ x ∈ xs, x.1 = [] := fun x hx => eq_nil_of_label ((hlabel x hx).trans hp)
    rw [hxs a ha, hxs b hb, hnil a ha, hnil b hb]
    exact bytesLe_refl _
  · rename_i hp
    obtain ⟨b, hb⟩ := exists_cons_of_label hp
    have hcons : ∀ x ∈ xs, x.1 = b :: x.1.tail := fun x hx => hb x.1 (hlabel x hx)
    exact hsorted (front ++ [b]) _ (Nat.le_of_eq (bulk_map_tail hcons)) (hxs.map_tail hcons)

/-- The parts of a split carry what their strings have behind the same prefix. -/
theorem carries_splitAt (p : Nat) (hxs : Carries string front xs) :
    Carries string front (splitAt p xs).below ∧ Carries string front (splitAt p xs).same
      ∧ Carries string front (splitAt p xs).above := by
  have hmem := fun x => (splitAt_perm p xs).mem_iff (a := x)
  refine ⟨?_, ?_, ?_⟩
  all_goals
    intro x hx
    refine hxs x ((hmem x).mp ?_)
    simp [hx]

/-- The pivot is not lost in an outer part: both are smaller than the list. -/
theorem bulk_splitAt_lt (h : xs ≠ []) :
    0 < (splitAt (pivot xs) xs).same.length
      ∧ bulk (splitAt (pivot xs) xs).below < bulk xs
      ∧ bulk (splitAt (pivot xs) xs).same ≤ bulk xs
      ∧ bulk (splitAt (pivot xs) xs).above < bulk xs := by
  have hsum := bulk_perm (splitAt_perm (pivot xs) xs)
  rw [bulk_append, bulk_append] at hsum
  have hsame : 0 < (splitAt (pivot xs) xs).same.length := by
    obtain ⟨x, hx, hlabel⟩ := exists_label_eq_pivot h
    have hparts := (splitAt_perm (pivot xs) xs).mem_iff.mpr hx
    rw [List.mem_append, List.mem_append] at hparts
    rcases hparts with (hbelow | hsame) | habove
    · exact absurd hlabel (Nat.ne_of_lt (label_lt_of_below _ xs x hbelow))
    · exact List.length_pos_of_mem hsame
    · exact absurd hlabel.symm (Nat.ne_of_lt (label_gt_of_above _ xs x habove))
  have hle := length_le_bulk (splitAt (pivot xs) xs).same
  omega

end Sorted

/-- Sorting puts the strings of the items in order. -/
theorem inOrder_sortItems (string : α → List UInt8) : ∀ (fuel : Nat) (front : List UInt8)
    (xs : List (List UInt8 × α)), bulk xs < fuel → Carries string front xs →
    InOrder string (sortItems fuel xs)
  | 0, _, _, h, _ => absurd h (Nat.not_lt_zero _)
  | fuel + 1, front, xs, hfuel, hxs => by
      by_cases h : xs.length ≤ 10
      · rw [sortItems, if_pos h]
        exact inOrder_insertionSort hxs
      have hne : xs ≠ [] := by
        intro hnil
        simp [hnil] at h
      obtain ⟨hbelow, hsame, habove⟩ := carries_splitAt (pivot xs) hxs
      obtain ⟨hpos, hltbelow, hlesame, hltabove⟩ := bulk_splitAt_lt hne
      have hlt := label_lt_of_below (pivot xs) xs
      have heq := label_eq_of_same (pivot xs) xs
      have hgt := label_gt_of_above (pivot xs) xs
      have hmiddle : InOrder string (sortSame fuel (pivot xs) (splitAt (pivot xs) xs).same) := by
        refine inOrder_sortSame hsame heq ?_
        intro more ys hbulk hys
        exact inOrder_sortItems string fuel more ys (by omega) hys
      rw [sortItems_of_long h, InOrder, List.map_append, List.map_append, List.append_assoc,
        List.pairwise_append, List.pairwise_append]
      refine ⟨inOrder_sortItems string fuel front _ (by omega) hbelow,
        ⟨hmiddle, inOrder_sortItems string fuel front _ (by omega) habove, ?_⟩, ?_⟩
      · refine bytesLe_of_label_lt_of_perm (sortSame_perm _ _ _) (sortItems_perm _ _) hsame habove
          ?_
        intro x hx y hy
        rw [heq x hx]
        exact hgt y hy
      · intro a ha b hb
        rcases List.mem_append.mp hb with hb | hb
        · refine bytesLe_of_label_lt_of_perm (sortItems_perm _ _) (sortSame_perm _ _ _) hbelow hsame
            ?_ a ha b hb
          intro x hx y hy
          rw [heq y hy]
          exact hlt x hx
        · refine bytesLe_of_label_lt_of_perm (sortItems_perm _ _) (sortItems_perm _ _) hbelow habove
            ?_ a ha b hb
          intro x hx y hy
          exact Nat.lt_trans (hlt x hx) (hgt y hy)

/-! ## Sorting by a string -/

variable (string : α → List UInt8) (xs : List α)

/-- Sorting by strings rearranges a list. -/
theorem sortStrings_perm : (sortStrings string xs).Perm xs := by
  have h := sortItems_perm (sumOf (xs.map fun x => (string x).length + 1) + 1)
    (xs.map fun x => (string x, x))
  rw [List.map_map, List.map_id''] at h
  · exact h
  · intro x
    rfl

/-- The sorted list has its strings in order. -/
theorem sortStrings_sorted :
    (sortStrings string xs).Pairwise fun a b => bytesLe (string a) (string b) = true := by
  refine inOrder_sortItems string _ [] _ ?_ ?_
  · rw [bulk, List.map_map]
    exact Nat.lt_succ_self _
  · intro x hx
    obtain ⟨a, _, rfl⟩ := List.mem_map.mp hx
    rfl

/-! ## Different strings -/

/-- A run of one string and what comes behind it are counted apart. -/
theorem distinct_append {a : List UInt8} {front back : List (List UInt8)} (hne : front ≠ [])
    (hfront : ∀ x ∈ front, x = a) (hback : a ∉ back) :
    distinct (front ++ back) = 1 + distinct back := by
  have hchain : front.IsChain fun x y => (x == y) = true := by
    refine List.Pairwise.isChain (List.pairwise_of_forall_mem_list ?_)
    intro x hx y hy
    rw [hfront x hx, hfront y hy]
    exact beq_self_eq_true a
  have hapart : ∀ x ∈ front.getLast?, ∀ y ∈ back.head?, (x == y) = false := by
    intro x hx y hy
    rw [hfront x (List.mem_of_getLast? hx), beq_eq_false_iff_ne]
    exact fun heq => hback (heq ▸ List.mem_of_head? hy)
  unfold distinct
  rw [List.splitBy_append hapart, List.splitBy_of_isChain hne hchain, List.length_append,
    List.length_singleton]

/-- In a sorted list the strings equal to a least one stand in front of the others. -/
theorem filter_append_filter {a : List UInt8} {xs : List (List UInt8)}
    (h : xs.Pairwise (bytesLe · ·)) (ha : ∀ x ∈ xs, bytesLe a x = true) :
    xs.filter (· = a) ++ xs.filter (· ≠ a) = xs := by
  induction xs with
  | nil => rfl
  | cons y xs ih =>
    obtain ⟨hy, hxs⟩ := List.pairwise_cons.mp h
    by_cases hya : y = a
    · have ih' := ih hxs fun x hx => ha x (List.mem_cons_of_mem y hx)
      simpa [hya] using ih'
    · have hnone : ∀ x ∈ y :: xs, x ≠ a := by
        intro x hx heq
        rcases List.mem_cons.mp hx with rfl | hx
        · exact hya heq
        · exact hya (bytesLe_antisymm (heq ▸ hy x hx) (ha y List.mem_cons_self))
      rw [List.filter_eq_nil_iff.mpr (by simpa using hnone),
        List.filter_eq_self.mpr (by simpa using hnone), List.nil_append]

/-- In a sorted list equal strings stand together, so cutting it where the string changes counts
the different ones. -/
theorem distinct_eq_card {xs : List (List UInt8)} (h : xs.Pairwise (bytesLe · ·)) :
    distinct xs = xs.toFinset.card := by
  induction hn : xs.length using Nat.strong_induction_on generalizing xs with
  | _ n ih =>
    cases xs with
    | nil => rfl
    | cons a xs =>
      have hleast : ∀ x ∈ a :: xs, bytesLe a x = true := by
        intro x hx
        rcases List.mem_cons.mp hx with rfl | hx
        · exact bytesLe_refl x
        · exact (List.pairwise_cons.mp h).1 x hx
      have hfront : (a :: xs).filter (· = a) ≠ [] := by simp
      have hfewer : ((a :: xs).filter (· ≠ a)).length < n := by
        rw [← hn, List.length_filter_lt_length_iff_exists]
        exact ⟨a, List.mem_cons_self, by simp⟩
      have hset : (a :: xs).toFinset = insert a ((a :: xs).filter (· ≠ a)).toFinset := by
        ext x
        by_cases hx : x = a
        · simp [hx]
        · simp [hx]
      have hcount : distinct (a :: xs) = 1 + distinct ((a :: xs).filter (· ≠ a)) := by
        rw [← distinct_append hfront (a := a) (by simp) (by simp), filter_append_filter h hleast]
      rw [hcount, hset, Finset.card_insert_of_notMem (by simp), ih _ hfewer (h.filter _) rfl,
        Nat.add_comm]

end Lexicon.Sorting
