/-
Lexicon.Sorting.Strings — sorting byte strings.

Strings are sorted byte by byte, an ended string before all that go on. A list
of more than ten strings is split around the middle one of the labels of its
first, middle and last string; the strings that agree with the pivot are sorted
by what follows. Shorter lists are sorted by insertion. `sortStrings` sorts
items by a string that belongs to each, and `distinct` counts the different
strings of a sorted list.
-/
import Lexicon.Arithmetic
import Lexicon.Sorting.Insertion
import Lexicon.Sorting.Partition

namespace Lexicon.Sorting

variable {α : Type}

/-- Whether a byte string stands at or before another, bytes by value and ends first. -/
def bytesLe : List UInt8 → List UInt8 → Bool
  | [], _ => true
  | _ :: _, [] => false
  | a :: as, b :: bs => a < b || (a == b && bytesLe as bs)

/-- The label of a string: 0 at its end, else one more than its first byte. -/
def label : List UInt8 → Nat
  | [] => 0
  | b :: _ => b.toNat + 1

/-- The middle one of three numbers. -/
def median (x y z : Nat) : Nat :=
  if x < y then
    if y < z then y else if x < z then z else x
  else
    if x < z then x else if y < z then z else y

/-- The pivot of a list of strings. -/
def pivot (xs : List (List UInt8 × α)) : Nat :=
  let at? (i : Nat) := (xs[i]?).elim 0 (label ·.1)
  median (at? 0) (at? (xs.length / 2)) (at? (xs.length - 1))

/-- The items in the order of their strings; `fuel` bounds the number of nested splits. -/
def sortItems : (fuel : Nat) → List (List UInt8 × α) → List (List UInt8 × α)
  | 0, xs => xs
  | fuel + 1, xs =>
    if xs.length ≤ 10 then
      insertionSort (fun x y => bytesLe x.1 y.1) xs
    else
      let p := pivot xs
      let parts := partition (fun x => compare (label x.1) p) xs
      let same :=
        if p = 0 then parts.same
        else sortItems fuel (parts.same.map fun x => (x.1.tail, x.2))
      sortItems fuel parts.below ++ same ++ sortItems fuel parts.above

/-- The items of a list in the order of their strings. -/
def sortStrings (string : α → List UInt8) (xs : List α) : List α :=
  let fuel := sumOf (xs.map fun x => (string x).length + 1) + 1
  (sortItems fuel (xs.map fun x => (string x, x))).map (·.2)

/-- The number of different strings in a sorted list. -/
def distinct (xs : List (List UInt8)) : Nat :=
  (xs.splitBy (· == ·)).length

end Lexicon.Sorting
