/-
Lexicon.Sorting.Partition — splitting a list around a pivot.

A sweep reads the list from both ends. The left end keeps what is below the
pivot and stops at the first element above it; the right end then keeps what is
above until it meets an element below, and the two change places. What equals
the pivot is set aside on the side where it was met. Setting an element aside
costs the side's own order one turn: its oldest element becomes its newest.

The order of equal strings in a sorted keyset is the order in which their
weights are added, and it is fixed here.
-/

namespace Lexicon.Sorting

variable {α : Type}

/-! ## One side of a sweep -/

/-- A line of elements, the first in `front`, the last at the head of `back`. -/
structure Line (α : Type) where
  front : List α := []
  back : List α := []

/-- The elements of a line, the first one first. -/
def Line.toList (l : Line α) : List α :=
  l.front ++ l.back.reverse

/-- A line with one more element at its end. -/
def Line.push (l : Line α) (x : α) : Line α :=
  { l with back := x :: l.back }

/-- A line whose first element went to its end. -/
def Line.turn (l : Line α) : Line α :=
  match l.front with
  | x :: front => ⟨front, x :: l.back⟩
  | [] =>
    match l.back.reverse with
    | [] => l
    | x :: front => ⟨front, [x]⟩

/-- What one side of a sweep has met: the elements it keeps, and those equal to the pivot, the last
one first. -/
structure Side (α : Type) where
  kept : Line α := {}
  same : List α := []

/-- A side that keeps one more element. -/
def Side.keep (s : Side α) (x : α) : Side α :=
  { s with kept := s.kept.push x }

/-- A side that sets aside one more element equal to the pivot. -/
def Side.setAside (s : Side α) (x : α) : Side α :=
  ⟨s.kept.turn, x :: s.same⟩

/-- The elements that a side keeps, once those set aside have left: as many turns back as it has
set elements aside. -/
def Side.settled (s : Side α) : List α :=
  s.kept.toList.rotateRight s.same.length

/-! ## The sweep -/

/-- The sweep of the `n` elements that are still to be read.

`front` starts with the next element from the left and `back` with the next one
from the right. `held` is an element above the pivot at which the left end
stopped; while there is one, the right end reads. -/
def sweep (compare : α → Ordering) : Nat → Option α → (front back : List α) →
    (left right : Side α) → Side α × Side α
  | n + 1, none, x :: front, back, left, right =>
    match compare x with
    | .lt => sweep compare n none front back (left.keep x) right
    | .eq => sweep compare n none front back (left.setAside x) right
    | .gt => sweep compare n (some x) front back left right
  | n + 1, some x, front, y :: back, left, right =>
    match compare y with
    | .lt => sweep compare n none front back (left.keep y) (right.keep x)
    | .eq => sweep compare n (some x) front back left (right.setAside y)
    | .gt => sweep compare n (some x) front back left (right.keep y)
  | _, some x, _, _, left, right => (left, right.keep x)
  | _, none, _, _, left, right => (left, right)

/-- The elements below, at and above a pivot. -/
structure Parts (α : Type) where
  below : List α
  same : List α
  above : List α

/-- The parts of a list under a comparison with a pivot. -/
def partition (compare : α → Ordering) (xs : List α) : Parts α :=
  let (left, right) := sweep compare xs.length none xs xs.reverse {} {}
  { below := left.settled
    same := left.same.reverse ++ right.same
    above := right.settled.reverse }

end Lexicon.Sorting
