/-
Lexicon.Sorting.Insertion — sorting short lists.

`insertionSort` is stable: an element is put after every element that may stand
before it. The lists sorted here are short, at most the children of one node.
-/

namespace Lexicon.Sorting

variable {α : Type}

/-- A list with `x` put after the leading elements that may stand before `x`. -/
def insertAfter (le : α → α → Bool) (x : α) : List α → List α
  | [] => [x]
  | y :: ys => if le y x then y :: insertAfter le x ys else x :: y :: ys

/-- The elements of a list in order, equal ones as they came. -/
def insertionSort (le : α → α → Bool) (xs : List α) : List α :=
  xs.foldl (fun sorted x => insertAfter le x sorted) []

end Lexicon.Sorting
