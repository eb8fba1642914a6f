/-
Lexicon.Proofs.Folds — arrays that are filled place by place, and greatest values.

The nodes where strings end and the positions of strings in a tail are written into
an array one after the other, each at the place of its string. Whatever holds of all
that is written at a place holds of what stands there in the end. The slots of a cache
are changed place by place too, and keep what every change keeps. Where a fold looks for
the greatest value of a list, none of the list is greater, and the result stays below any
number that they are all below.
-/

namespace Lexicon

theorem le_foldl_max {α : Type} (f : α → Nat) (xs : List α) (m : Nat) :
    m ≤ xs.foldl (fun m x => max m (f x)) m
      ∧ ∀ x ∈ xs, f x ≤ xs.foldl (fun m x => max m (f x)) m := by
  induction xs generalizing m with
  | nil => simp
  | cons y xs ih =>
    obtain ⟨hstart, hall⟩ := ih (max m (f y))
    rw [List.foldl_cons]
    refine ⟨Nat.le_trans (Nat.le_max_left _ _) hstart, ?_⟩
    intro x hx
    rcases List.mem_cons.mp hx with rfl | hx
    · exact Nat.le_trans (Nat.le_max_right _ _) hstart
    · exact hall x hx

theorem foldl_max_lt {α : Type} (f : α → Nat) {xs : List α} {m bound : Nat} (h : m < bound)
    (hall : ∀ x ∈ xs, f x < bound) : xs.foldl (fun m x => max m (f x)) m < bound := by
  induction xs generalizing m with
  | nil => exact h
  | cons x xs ih =>
    exact ih (Nat.max_lt.mpr ⟨h, hall x List.mem_cons_self⟩)
      fun y hy => hall y (List.mem_cons_of_mem x hy)

@[simp] theorem size_foldl_set (written : List (Nat × Nat)) (places : Array Nat) :
    (written.foldl (fun places (index, value) => places.setIfInBounds index value) places).size
      = places.size := by
  induction written generalizing places with
  | nil => rfl
  | cons x written ih => rw [List.foldl_cons, ih, Array.size_setIfInBounds]

/-- What stands at a place keeps a property that it had, or that all that is written there has. -/
theorem foldl_set_keeps (holds : Nat → Nat → Prop) : ∀ {written : List (Nat × Nat)}
    {places : Array Nat} {index : Nat}, (∀ x ∈ written, holds x.1 x.2) →
    (∃ value, places[index]? = some value ∧ holds index value) →
    ∃ value, (written.foldl (fun places (index, value) => places.setIfInBounds index value)
      places)[index]? = some value ∧ holds index value
  | [], _, _, _, h => h
  | (index', value') :: written, places, index, hall, ⟨value, hget, hvalue⟩ => by
      rw [List.foldl_cons]
      apply foldl_set_keeps holds fun x hx => hall x (List.mem_cons_of_mem _ hx)
      rw [Array.getElem?_setIfInBounds]
      by_cases hsame : index' = index
      · subst hsame
        have hlt := (Array.getElem?_eq_some_iff.mp hget).1
        rw [if_pos rfl, if_pos hlt]
        exact ⟨value', rfl, hall _ List.mem_cons_self⟩
      · rw [if_neg hsame]
        exact ⟨value, hget, hvalue⟩

/-- At a place where something is written stands something that was written there. -/
theorem foldl_set_getElem? (holds : Nat → Nat → Prop) : ∀ {written : List (Nat × Nat)}
    {places : Array Nat} {index value : Nat}, (∀ x ∈ written, holds x.1 x.2) →
    index < places.size → (index, value) ∈ written →
    ∃ value, (written.foldl (fun places (index, value) => places.setIfInBounds index value)
      places)[index]? = some value ∧ holds index value
  | (index', value') :: written, places, index, value, hall, hlt, hmem => by
      have hrest : ∀ x ∈ written, holds x.1 x.2 := fun x hx => hall x (List.mem_cons_of_mem _ hx)
      rw [List.foldl_cons]
      rcases List.mem_cons.mp hmem with heq | hmem
      · obtain ⟨rfl, rfl⟩ := Prod.mk.inj heq
        apply foldl_set_keeps holds hrest
        rw [Array.getElem?_setIfInBounds, if_pos rfl, if_pos hlt]
        exact ⟨value, rfl, hall _ List.mem_cons_self⟩
      · exact foldl_set_getElem? holds hrest (by rw [Array.size_setIfInBounds]; exact hlt) hmem

section

variable {α β : Type} (placeOf : α → Nat) (change : α → β → β)

@[simp] theorem size_foldl_modify (changes : List α) (table : Array β) :
    (changes.foldl (fun table x => table.modify (placeOf x) (change x)) table).size
      = table.size := by
  induction changes generalizing table with
  | nil => rfl
  | cons x changes ih => rw [List.foldl_cons, ih, Array.size_modify]

/-- What holds of every slot after so many changes, and after one more if the next is made where it
belongs, holds of every slot after all of them. -/
theorem foldl_modify_counts (holds : Nat → Nat → β → Prop) {changes : List α} {table : Array β}
    (hsame : ∀ m x, changes[m]? = some x → ∀ slot, holds m (placeOf x) slot →
      holds (m + 1) (placeOf x) (change x slot))
    (hother : ∀ m x, changes[m]? = some x → ∀ k slot, placeOf x ≠ k → holds m k slot →
      holds (m + 1) k slot)
    (h : ∀ k slot, table[k]? = some slot → holds 0 k slot) :
    ∀ k slot, (changes.foldl (fun table x => table.modify (placeOf x) (change x)) table)[k]?
      = some slot → holds changes.length k slot := by
  induction changes generalizing table holds with
  | nil => exact h
  | cons x changes ih =>
    rw [List.foldl_cons, List.length_cons]
    apply ih (fun m => holds (m + 1)) (fun m y hy => hsame (m + 1) y hy)
      (fun m y hy => hother (m + 1) y hy)
    intro k slot hslot
    rw [Array.getElem?_modify] at hslot
    by_cases hk : placeOf x = k
    · rw [if_pos hk] at hslot
      obtain ⟨old, hold, rfl⟩ := Option.map_eq_some_iff.mp hslot
      rw [← hk] at hold ⊢
      exact hsame 0 x rfl old (h _ _ hold)
    · rw [if_neg hk] at hslot
      exact hother 0 x rfl k slot hk (h k slot hslot)

/-- What holds of every slot and is kept by every change holds of every slot in the end. -/
theorem foldl_modify_keeps (holds : Nat → β → Prop) {changes : List α} {table : Array β}
    (hchange : ∀ x ∈ changes, ∀ slot, holds (placeOf x) slot → holds (placeOf x) (change x slot))
    (h : ∀ k slot, table[k]? = some slot → holds k slot) :
    ∀ k slot, (changes.foldl (fun table x => table.modify (placeOf x) (change x)) table)[k]?
      = some slot → holds k slot :=
  foldl_modify_counts placeOf change (fun _ => holds)
    (fun _ x hx slot => hchange x (List.mem_of_getElem? hx) slot) (fun _ _ _ _ _ _ h => h) h

end

end Lexicon
