/-
Lexicon.Sorting.InPlace — sorting byte strings in their array.

The sort of `Lexicon.Sorting.Strings` by exchanging the elements of an array, with a count of the
different strings. A range of more than ten elements is split around a pivot: two ends read towards
each other, elements equal to the pivot are parked at both ends of the range, and in the end they
are exchanged into its middle. Nothing is read but an element of the array or a byte of a string,
and what would read past these gives no result, as does a place before the first one. Every loop
brings its ends nearer to each other; only of the nested splits it has to be proved that they are as
few as they are allowed to be.
-/
import Lexicon.Sorting.Strings

namespace Lexicon.Sorting

variable {α : Type}

/-- How elements are read as byte strings. -/
structure View (α : Type) where
  len : α → Nat
  /-- Byte `i`, if the string has so many. -/
  byte? : α → Nat → Option UInt8

/-- The label of an element at a depth: 0 at the end of its string, else one more than the byte. -/
def View.label? (view : View α) (a : α) (depth : Nat) : Option Nat :=
  if depth < view.len a then (view.byte? a depth).map (·.toNat + 1) else some 0

/-- How two elements compare that agree before a depth. -/
def View.compare? (view : View α) (a b : α) (depth : Nat) : Option Ordering :=
  if depth < view.len a then
    if depth < view.len b then do
      let x ← view.byte? a depth
      let y ← view.byte? b depth
      match compare x y with
      | .eq => view.compare? a b (depth + 1)
      | unequal => some unequal
    else some .gt
  else if depth < view.len b then some .lt
  else some .eq
termination_by view.len a - depth

/-- A difference, if it is not below zero. -/
def minus? (a b : Nat) : Option Nat :=
  if b ≤ a then some (a - b) else none

/-- Exchanges two elements. -/
def swap? (items : Array α) (i j : Nat) : Option (Array α) :=
  if h : i < items.size ∧ j < items.size then some (items.swap i j h.1 h.2) else none

/-! ## Inserting -/

/-- Exchanges the element behind the first `j` of a range with the one before it while that one has
to stand behind it; with the last comparison. -/
def sink? (view : View α) (depth l : Nat) : (j : Nat) → Ordering → Array α →
    Option (Array α × Ordering)
  | 0, result, items => some (items, result)
  | j + 1, _, items => do
    let result ← view.compare? (← items[l + j]?) (← items[l + j + 1]?) depth
    if result = .gt then sink? view depth l j result (← swap? items (l + j) (l + j + 1))
    else some (items, result)

/-- Sinks the elements of a range of `n` from number `i` on, and counts those that are new. -/
def insertFrom? (view : View α) (depth l n i : Nat) (items : Array α) (count : Nat) :
    Option (Array α × Nat) :=
  if i < n then do
    let (items, result) ← sink? view depth l i .eq items
    insertFrom? view depth l n (i + 1) items (if result = .eq then count else count + 1)
  else some (items, count)
termination_by n - i

/-! ## Splitting -/

/-- Reads on at the left end, as far as to an element above the pivot or to the right end. What
equals the pivot is parked at `same`. -/
def scanLeft? (view : View α) (depth pivot right : Nat) (items : Array α) (left same : Nat) :
    Option (Array α × Nat × Nat) :=
  if left < right then do
    let current ← view.label? (← items[left]?) depth
    if pivot < current then some (items, left, same)
    else if current = pivot then
      scanLeft? view depth pivot right (← swap? items left same) (left + 1) (same + 1)
    else scanLeft? view depth pivot right items (left + 1) same
  else some (items, left, same)
termination_by right - left

/-- Reads on at the right end, as far as to an element below the pivot or to the left end. What
equals the pivot is parked before `same`. -/
def scanRight? (view : View α) (depth pivot left : Nat) (items : Array α) (right same : Nat) :
    Option (Array α × Nat × Nat) :=
  if left < right then do
    let current ← view.label? (← items[right - 1]?) depth
    if current < pivot then some (items, right - 1, same)
    else if current = pivot then do
      let same ← minus? same 1
      scanRight? view depth pivot left (← swap? items (right - 1) same) (right - 1) same
    else scanRight? view depth pivot left items (right - 1) same
  else some (items, right, same)
termination_by right

theorem le_of_scanLeft? {view : View α} {depth pivot right : Nat} {items : Array α}
    {left same : Nat} {result : Array α × Nat × Nat}
    (h : scanLeft? view depth pivot right items left same = some result) : left ≤ result.2.1 := by
  fun_induction scanLeft? view depth pivot right items left same with
  | case1 items left same hlt ih₁ ih₂ =>
    simp only [Option.bind_eq_bind, Option.bind_eq_some_iff] at h
    obtain ⟨a, -, current, -, h⟩ := h
    split at h
    · obtain rfl := Option.some.inj h
      exact Nat.le_refl _
    · split at h
      · obtain ⟨swapped, -, h⟩ := Option.bind_eq_some_iff.mp h
        exact Nat.le_of_succ_le (ih₁ swapped h)
      · exact Nat.le_of_succ_le (ih₂ h)
  | case2 items left same hlt =>
    obtain rfl := Option.some.inj h
    exact Nat.le_refl _

theorem le_of_scanRight? {view : View α} {depth pivot left : Nat} {items : Array α}
    {right same : Nat} {result : Array α × Nat × Nat}
    (h : scanRight? view depth pivot left items right same = some result) :
    result.2.1 ≤ right := by
  fun_induction scanRight? view depth pivot left items right same with
  | case1 items right same hlt ih₁ ih₂ =>
    simp only [Option.bind_eq_bind, Option.bind_eq_some_iff] at h
    obtain ⟨a, -, current, -, h⟩ := h
    split at h
    · obtain rfl := Option.some.inj h
      exact Nat.sub_le _ _
    · split at h
      · obtain ⟨same, -, h⟩ := Option.bind_eq_some_iff.mp h
        obtain ⟨swapped, -, h⟩ := Option.bind_eq_some_iff.mp h
        exact Nat.le_trans (ih₁ same swapped h) (Nat.sub_le _ _)
      · exact Nat.le_trans (ih₂ h) (Nat.sub_le _ _)
  | case2 items right same hlt =>
    obtain rfl := Option.some.inj h
    exact Nat.le_refl _

/-- Reads on at both ends. -/
def scan? (view : View α) (depth pivot : Nat) (items : Array α)
    (left right sameLeft sameRight : Nat) : Option (Array α × Nat × Nat × Nat × Nat) := do
  let (items, left, sameLeft) ← scanLeft? view depth pivot right items left sameLeft
  let (items, right, sameRight) ← scanRight? view depth pivot left items right sameRight
  some (items, left, right, sameLeft, sameRight)

theorem bounds_of_scan? {view : View α} {depth pivot : Nat} {items items' : Array α}
    {left right sameLeft sameRight left' right' sameLeft' sameRight' : Nat}
    (h : scan? view depth pivot items left right sameLeft sameRight
      = some (items', left', right', sameLeft', sameRight')) : left ≤ left' ∧ right' ≤ right := by
  simp only [scan?, Option.bind_eq_bind, Option.bind_eq_some_iff] at h
  obtain ⟨⟨items₁, left₁, sameLeft₁⟩, hleft, ⟨items₂, right₂, sameRight₂⟩, hright, h⟩ := h
  obtain ⟨⟩ := Option.some.inj h
  exact ⟨le_of_scanLeft? hleft, le_of_scanRight? hright⟩

/-- Reads at both ends in turn and exchanges the elements at which they stop, until these meet. -/
def sweep? (view : View α) (depth pivot : Nat) (items : Array α)
    (left right sameLeft sameRight : Nat) : Option (Array α × Nat × Nat × Nat × Nat) :=
  match h : scan? view depth pivot items left right sameLeft sameRight with
  | none => none
  | some (items, left', right', sameLeft, sameRight) =>
    if left' < right' then do
      sweep? view depth pivot (← swap? items left' right') (left' + 1) right' sameLeft sameRight
    else some (items, left', right', sameLeft, sameRight)
termination_by right - left
decreasing_by
  have hbounds := bounds_of_scan? h
  omega

theorem sweep?_eq (view : View α) (depth pivot : Nat) (items : Array α)
    (left right sameLeft sameRight : Nat) :
    sweep? view depth pivot items left right sameLeft sameRight
      = (scan? view depth pivot items left right sameLeft sameRight).bind
        fun (items, left, right, sameLeft, sameRight) =>
          if left < right then
            (swap? items left right).bind fun items =>
              sweep? view depth pivot items (left + 1) right sameLeft sameRight
          else some (items, left, right, sameLeft, sameRight) := by
  rw [sweep?]
  split
  · rename_i h
    rw [h, Option.bind_none]
  · rename_i h
    rw [h, Option.bind_some]
    rfl

/-- Exchanges what is parked between `l` and `same` with what lies before `left`. -/
def settleLeft? (l : Nat) (items : Array α) (left same : Nat) : Option (Array α × Nat) :=
  if l < same then do
    let left ← minus? left 1
    settleLeft? l (← swap? items (same - 1) left) left (same - 1)
  else some (items, left)
termination_by same

/-- Exchanges what is parked between `same` and `r` with what lies from `right` on. -/
def settleRight? (r : Nat) (items : Array α) (right same : Nat) : Option (Array α × Nat) :=
  if same < r then do
    settleRight? r (← swap? items same right) (right + 1) (same + 1)
  else some (items, right)
termination_by r - same

/-- Splits a range around a pivot; with the bounds of what equals it. -/
def partition? (view : View α) (depth pivot l r : Nat) (items : Array α) :
    Option (Array α × Nat × Nat) := do
  let (items, left, right, sameLeft, sameRight) ← sweep? view depth pivot items l r l r
  let (items, left) ← settleLeft? l items left sameLeft
  let (items, right) ← settleRight? r items right sameRight
  some (items, left, right)

/-! ## Sorting -/

/-- The middle one of the labels of the first, the middle and the last element of a range. -/
def pivot? (view : View α) (depth l r : Nat) (items : Array α) : Option Nat := do
  let x ← view.label? (← items[l]?) depth
  let y ← view.label? (← items[l + (r - l) / 2]?) depth
  let z ← view.label? (← items[r - 1]?) depth
  some (median x y z)

/-- Sorts a range of elements that agree before a depth, and counts their different strings. If one
of the outer parts is larger than the middle one, the larger of them is sorted last, else the middle
one. No more than `fuel` splits are nested. -/
def sortRange? (view : View α) : (fuel : Nat) → Array α → (l r depth : Nat) →
    Option (Array α × Nat)
  | 0, _, _, _, _ => none
  | fuel + 1, items, l, r, depth => do
    let length ← minus? r l
    if 10 < length then do
      let pivot ← pivot? view depth l r items
      let (items, pl, pr) ← partition? view depth pivot l r items
      let left ← minus? pl l
      let mid ← minus? pr pl
      let right ← minus? r pr
      if mid < left ∨ mid < right then do
        let (items, same) ←
          (if pivot = 0 then some (items, if pl < pr then 1 else 0)
          else sortRange? view fuel items pl pr (depth + 1))
        if left < right then do
          let (items, below) ← sortRange? view fuel items l pl depth
          let (items, above) ← sortRange? view fuel items pr r depth
          some (items, same + below + above)
        else do
          let (items, above) ← sortRange? view fuel items pr r depth
          let (items, below) ← sortRange? view fuel items l pl depth
          some (items, same + above + below)
      else do
        let (items, below) ← sortRange? view fuel items l pl depth
        let (items, above) ← sortRange? view fuel items pr r depth
        let (items, same) ←
          (if pivot = 0 then some (items, if 0 < mid then 1 else 0)
          else sortRange? view fuel items pl pr (depth + 1))
        some (items, below + above + same)
    else if length = 0 then some (items, 0)
    else if length = 1 then some (items, 1)
    else insertFrom? view depth l length 1 items 1

/-- Sorts an array, and counts its different strings. -/
def sort? (view : View α) (items : Array α) : Option (Array α × Nat) :=
  let fuel := sumOf (items.toList.map fun a => view.len a + 1) + 1
  sortRange? view fuel items 0 items.size 0

end Lexicon.Sorting
