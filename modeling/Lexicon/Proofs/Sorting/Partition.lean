/-
Lexicon.Proofs.Sorting.Partition — a sweep keeps every element, on the side where
it belongs.

The invariant of a sweep is about the elements still to be read: the left end has
them from the front, the right end from the back, so what the right end reads
next is the last of them. With it `sweep_perm` follows a sweep step by step and
loses nothing, and `sweep_holds` says that each side keeps only what
compares as it must. Turning a line and turning it back are rearrangements, so
they do not matter here.
-/
import Lexicon.Sorting.Partition

namespace Lexicon.Sorting

variable {α : Type}

/-! ## Lines and sides -/

theorem Line.toList_push (l : Line α) (x : α) : (l.push x).toList = l.toList ++ [x] := by
  simp [Line.push, Line.toList]

theorem Line.toList_turn_of_nil {l : Line α} (h : l.toList = []) : l.turn.toList = [] := by
  obtain ⟨front, back⟩ := l
  obtain ⟨rfl, hback⟩ := List.append_eq_nil_iff.mp h
  simp [Line.turn, Line.toList, hback]

/-- A turn puts the first element of a line behind the others. -/
theorem Line.toList_turn_of_cons {l : Line α} {x : α} {xs : List α} (h : l.toList = x :: xs) :
    l.turn.toList = xs ++ [x] := by
  obtain ⟨front, back⟩ := l
  cases front with
  | cons y front =>
    obtain ⟨rfl, rfl⟩ := List.cons.inj h
    simp [Line.turn, Line.toList]
  | nil =>
    have hback : back.reverse = x :: xs := h
    simp [Line.turn, Line.toList, hback]

theorem Line.turn_perm (l : Line α) : l.turn.toList.Perm l.toList := by
  cases h : l.toList with
  | nil => rw [l.toList_turn_of_nil h]
  | cons x xs =>
    rw [l.toList_turn_of_cons h]
    exact List.perm_append_singleton x xs

theorem rotateRight_perm (xs : List α) (n : Nat) : (xs.rotateRight n).Perm xs := by
  simp only [List.rotateRight]
  split
  · exact List.Perm.refl _
  · exact List.perm_append_comm.trans (List.Perm.of_eq (List.take_append_drop _ xs))

/-- All elements that a side has met. -/
def Side.items (s : Side α) : List α :=
  s.kept.toList ++ s.same

theorem Side.items_keep (s : Side α) (x : α) : (s.keep x).items.Perm (x :: s.items) := by
  simp only [Side.items, Side.keep, Line.toList_push, List.append_assoc, List.singleton_append]
  exact List.perm_middle

theorem Side.items_setAside (s : Side α) (x : α) : (s.setAside x).items.Perm (x :: s.items) :=
  List.perm_middle.trans ((s.kept.turn_perm.append_right s.same).cons x)

theorem Side.settled_perm (s : Side α) : s.settled.Perm s.kept.toList :=
  rotateRight_perm _ _

/-- A side has kept only elements that compare in its own way, and set aside equal ones. -/
structure Side.Holds (compare : α → Ordering) (o : Ordering) (s : Side α) : Prop where
  kept : ∀ x ∈ s.kept.toList, compare x = o
  same : ∀ x ∈ s.same, compare x = .eq

namespace Side.Holds

variable {compare : α → Ordering} {o : Ordering} {s : Side α}

theorem keep (h : s.Holds compare o) {x : α} (hx : compare x = o) : (s.keep x).Holds compare o := by
  refine ⟨?_, h.same⟩
  intro y hy
  rw [Side.keep, Line.toList_push, List.mem_append, List.mem_singleton] at hy
  rcases hy with hy | rfl
  · exact h.kept y hy
  · exact hx

theorem setAside (h : s.Holds compare o) {x : α} (hx : compare x = .eq) :
    (s.setAside x).Holds compare o := by
  refine ⟨?_, ?_⟩
  · intro y hy
    exact h.kept y (s.kept.turn_perm.mem_iff.mp hy)
  · intro y hy
    rcases List.mem_cons.mp hy with rfl | hy
    · exact hx
    · exact h.same y hy

theorem empty (compare : α → Ordering) (o : Ordering) : ({} : Side α).Holds compare o := by
  refine ⟨?_, ?_⟩
  all_goals
    intro x hx
    simp [Line.toList] at hx

end Side.Holds

/-! ## The sweep -/

/-- What the two ends of a sweep see of the `n` elements still to be read. -/
structure Facing (n : Nat) (front back : List α) : Prop where
  le_length : n ≤ front.length
  reversed : back.take n = (front.take n).reverse

/-- The left end reads the first of the elements. -/
theorem Facing.of_cons_front {n : Nat} {x : α} {front back : List α}
    (h : Facing (n + 1) (x :: front) back) : Facing n front back := by
  have hlength : n ≤ front.length := by simpa using h.le_length
  refine ⟨hlength, ?_⟩
  have hreversed := congrArg (List.take n) h.reversed
  have htaken : n ≤ (front.take n).reverse.length := by
    rw [List.length_reverse, List.length_take]
    omega
  rw [List.take_take, Nat.min_eq_left (Nat.le_succ n), List.take_succ_cons, List.reverse_cons,
    List.take_append_of_le_length htaken] at hreversed
  rw [hreversed, List.take_of_length_le]
  rw [List.length_reverse, List.length_take]
  omega

/-- The right end reads the last of the elements. -/
theorem Facing.of_cons_back {n : Nat} {y : α} {front back : List α}
    (h : Facing (n + 1) front (y :: back)) :
    Facing n front back ∧ front.take (n + 1) = front.take n ++ [y] := by
  have hn : n < front.length := h.le_length
  have htake : front.take (n + 1) = front.take n ++ [front[n]] := by
    rw [List.take_append_getElem]
  have hreversed := h.reversed
  rw [htake, List.take_succ_cons, List.reverse_append, List.reverse_singleton,
    List.singleton_append, List.cons.injEq] at hreversed
  refine ⟨⟨Nat.le_of_lt hn, hreversed.2⟩, ?_⟩
  rw [htake, hreversed.1]

/-- While an element is held there is one for the right end to read. -/
theorem Facing.back_ne_nil {n : Nat} {front : List α} (h : Facing (n + 1) front []) : False := by
  have hlength := congrArg List.length h.reversed
  have hle := h.le_length
  simp only [List.length_reverse, List.length_take, List.length_nil] at hlength
  omega

open Classical in
/-- A sweep keeps the elements that its sides hold, the one it holds itself and those still to be
read. -/
theorem sweep_perm (compare : α → Ordering) : ∀ (n : Nat) (held : Option α) (front back : List α)
    (left right : Side α), Facing n front back →
    ((sweep compare n held front back left right).1.items
        ++ (sweep compare n held front back left right).2.items).Perm
      (left.items ++ (right.items ++ (held.toList ++ front.take n)))
  | 0, none, front, back, left, right, _ => by simp [sweep]
  | 0, some x, front, back, left, right, _ => by
      rw [List.perm_iff_count]
      intro a
      have hkeep := (right.items_keep x).count_eq a
      simp only [sweep, List.count_append, List.count_cons, Option.toList_some, List.take_zero,
        List.count_nil] at hkeep ⊢
      omega
  | n + 1, none, [], back, left, right, h => by simpa using h.le_length
  | n + 1, none, x :: front, back, left, right, h => by
      have hnext := h.of_cons_front
      rw [List.perm_iff_count]
      intro a
      rw [sweep]
      split
      · have ih := (sweep_perm compare n none front back (left.keep x) right hnext).count_eq a
        have hkeep := (left.items_keep x).count_eq a
        simp only [List.count_append, List.count_cons, Option.toList_none, List.take_succ_cons,
          List.nil_append] at ih hkeep ⊢
        omega
      · have ih := (sweep_perm compare n none front back (left.setAside x) right hnext).count_eq a
        have hkeep := (left.items_setAside x).count_eq a
        simp only [List.count_append, List.count_cons, Option.toList_none, List.take_succ_cons,
          List.nil_append] at ih hkeep ⊢
        omega
      · exact (sweep_perm compare n (some x) front back left right hnext).count_eq a
  | n + 1, some x, front, [], left, right, h => h.back_ne_nil.elim
  | n + 1, some x, front, y :: back, left, right, h => by
      obtain ⟨hnext, htake⟩ := h.of_cons_back
      rw [List.perm_iff_count]
      intro a
      rw [sweep, htake]
      split
      · have ih :=
          (sweep_perm compare n none front back (left.keep y) (right.keep x) hnext).count_eq a
        have hleft := (left.items_keep y).count_eq a
        have hright := (right.items_keep x).count_eq a
        simp only [List.count_append, List.count_cons, Option.toList_none, Option.toList_some,
          List.count_nil] at ih hleft hright ⊢
        omega
      · have ih :=
          (sweep_perm compare n (some x) front back left (right.setAside y) hnext).count_eq a
        have hright := (right.items_setAside y).count_eq a
        simp only [List.count_append, List.count_cons, Option.toList_some, List.count_nil]
          at ih hright ⊢
        omega
      · have ih := (sweep_perm compare n (some x) front back left (right.keep y) hnext).count_eq a
        have hright := (right.items_keep y).count_eq a
        simp only [List.count_append, List.count_cons, Option.toList_some, List.count_nil]
          at ih hright ⊢
        omega

/-- Each side of a sweep keeps only what belongs to it. -/
theorem sweep_holds (compare : α → Ordering) : ∀ (n : Nat) (held : Option α) (front back : List α)
    (left right : Side α), left.Holds compare .lt → right.Holds compare .gt →
    (∀ x ∈ held, compare x = .gt) →
    (sweep compare n held front back left right).1.Holds compare .lt
      ∧ (sweep compare n held front back left right).2.Holds compare .gt
  | 0, none, _, _, left, right, hl, hr, _ => by
      simp only [sweep]
      exact ⟨hl, hr⟩
  | 0, some x, _, _, left, right, hl, hr, hx => by
      simp only [sweep]
      exact ⟨hl, hr.keep (hx x rfl)⟩
  | n + 1, none, [], _, left, right, hl, hr, _ => by
      simp only [sweep]
      exact ⟨hl, hr⟩
  | n + 1, none, x :: front, back, left, right, hl, hr, _ => by
      rw [sweep]
      split
      · rename_i hx
        exact sweep_holds compare n none front back _ _ (hl.keep hx) hr (by simp)
      · rename_i hx
        exact sweep_holds compare n none front back _ _ (hl.setAside hx) hr (by simp)
      · rename_i hx
        exact sweep_holds compare n (some x) front back _ _ hl hr (by simpa using hx)
  | n + 1, some x, _, [], left, right, hl, hr, hx => by
      simp only [sweep]
      exact ⟨hl, hr.keep (hx x rfl)⟩
  | n + 1, some x, front, y :: back, left, right, hl, hr, hx => by
      rw [sweep]
      split
      · rename_i hy
        exact sweep_holds compare n none front back _ _ (hl.keep hy) (hr.keep (hx x rfl)) (by simp)
      · rename_i hy
        exact sweep_holds compare n (some x) front back _ _ hl (hr.setAside hy) hx
      · rename_i hy
        exact sweep_holds compare n (some x) front back _ _ hl (hr.keep hy) hx

/-! ## The parts of a list -/

section Parts

variable (compare : α → Ordering) (xs : List α)

theorem facing_reverse : Facing xs.length xs xs.reverse := by
  refine ⟨Nat.le_refl _, ?_⟩
  rw [List.take_length, List.take_of_length_le (Nat.le_of_eq (List.length_reverse))]

open Classical in
/-- Every element is in one of the parts. -/
theorem partition_perm :
    ((partition compare xs).below ++ (partition compare xs).same
      ++ (partition compare xs).above).Perm xs := by
  have hsweep := sweep_perm compare xs.length none xs xs.reverse {} {} (facing_reverse xs)
  rw [List.perm_iff_count] at hsweep ⊢
  intro a
  have hcount := hsweep a
  generalize hsides : sweep compare xs.length none xs xs.reverse {} {} = sides at hcount
  have hleft := sides.1.settled_perm.count_eq a
  have hright := sides.2.settled_perm.count_eq a
  simp only [partition, hsides, Side.items, Line.toList, List.count_append, List.count_reverse,
    List.reverse_nil, List.count_nil, Option.toList_none, List.take_length] at hcount hleft hright ⊢
  omega

theorem partition_below : ∀ x ∈ (partition compare xs).below, compare x = .lt := by
  have hholds := (sweep_holds compare xs.length none xs xs.reverse {} {}
    (.empty compare .lt) (.empty compare .gt) (by simp)).1
  intro x hx
  exact hholds.kept x ((Side.settled_perm _).mem_iff.mp hx)

theorem partition_same : ∀ x ∈ (partition compare xs).same, compare x = .eq := by
  obtain ⟨hleft, hright⟩ := sweep_holds compare xs.length none xs xs.reverse {} {}
    (.empty compare .lt) (.empty compare .gt) (by simp)
  intro x hx
  rcases List.mem_append.mp hx with hx | hx
  · exact hleft.same x (List.mem_reverse.mp hx)
  · exact hright.same x hx

theorem partition_above : ∀ x ∈ (partition compare xs).above, compare x = .gt := by
  have hholds := (sweep_holds compare xs.length none xs xs.reverse {} {}
    (.empty compare .lt) (.empty compare .gt) (by simp)).2
  intro x hx
  exact hholds.kept x ((Side.settled_perm _).mem_iff.mp (List.mem_reverse.mp hx))

end Parts

end Lexicon.Sorting
