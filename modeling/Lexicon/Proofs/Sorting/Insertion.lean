/-
Lexicon.Proofs.Sorting.Insertion — insertion keeps all elements and orders them.

`insertionSort_perm` needs nothing of the order; `insertionSort_stable` asks that
the order compares any two elements and is transitive, and says that elements which
may stand either way keep the order in which they came. Sorting commutes with a map under
which the order is carried over (`insertionSort_map`).
-/
import Lexicon.Sorting.Insertion

namespace Lexicon.Sorting

variable {α : Type} (le : α → α → Bool)

theorem insertAfter_perm (x : α) (ys : List α) : (insertAfter le x ys).Perm (x :: ys) := by
  induction ys with
  | nil => exact List.Perm.refl _
  | cons y ys ih =>
    rw [insertAfter]
    split
    · exact (ih.cons y).trans (List.Perm.swap x y ys)
    · exact List.Perm.refl _

theorem foldl_insertAfter_perm (xs sorted : List α) :
    (xs.foldl (fun sorted x => insertAfter le x sorted) sorted).Perm (xs ++ sorted) := by
  induction xs generalizing sorted with
  | nil => exact List.Perm.refl _
  | cons x xs ih =>
    have hinsert := (insertAfter_perm le x sorted).append_left xs
    rw [List.foldl_cons]
    exact (ih (insertAfter le x sorted)).trans (hinsert.trans List.perm_middle)

/-- The sorted list has the elements of the list. -/
theorem insertionSort_perm (xs : List α) : (insertionSort le xs).Perm xs := by
  have h := foldl_insertAfter_perm le xs []
  rwa [List.append_nil] at h

/-! ## Sorting images -/

theorem insertAfter_map {β : Type} (f : β → α) (x : β) (ys : List β) :
    insertAfter le (f x) (ys.map f) = (insertAfter (fun x y => le (f x) (f y)) x ys).map f := by
  induction ys with
  | nil => rfl
  | cons y ys ih =>
    rw [List.map_cons, insertAfter, insertAfter]
    split
    · rw [ih, List.map_cons]
    · rw [List.map_cons, List.map_cons]

theorem foldl_insertAfter_map {β : Type} (f : β → α) (xs sorted : List β) :
    (xs.map f).foldl (fun sorted x => insertAfter le x sorted) (sorted.map f)
      = (xs.foldl (fun sorted x => insertAfter (fun x y => le (f x) (f y)) x sorted)
          sorted).map f := by
  induction xs generalizing sorted with
  | nil => rfl
  | cons x xs ih => rw [List.map_cons, List.foldl_cons, List.foldl_cons, insertAfter_map, ih]

/-- Images are sorted like what they are images of. -/
theorem insertionSort_map {β : Type} (f : β → α) (xs : List β) :
    insertionSort le (xs.map f) = (insertionSort (fun x y => le (f x) (f y)) xs).map f :=
  foldl_insertAfter_map le f xs []

/-! ## Order -/

/-- One element may stand before another, and if the other might as well it came first. -/
def StableBefore (came : α → α → Prop) (x y : α) : Prop :=
  le x y = true ∧ (le y x = true → came x y)

section Order

variable {le} (total : ∀ x y, le x y = true ∨ le y x = true)
  (trans : ∀ x y z, le x y = true → le y z = true → le x z = true) {came : α → α → Prop}

include total trans

/-- An element that comes after all others is put behind those that it does not have to precede. -/
theorem insertAfter_stable (x : α) {ys : List α} (h : ys.Pairwise (StableBefore le came))
    (hcame : ∀ y ∈ ys, came y x) : (insertAfter le x ys).Pairwise (StableBefore le came) := by
  induction ys with
  | nil => exact List.pairwise_singleton _ x
  | cons y ys ih =>
    obtain ⟨hy, hys⟩ := List.pairwise_cons.mp h
    rw [insertAfter]
    split
    · rename_i hle
      refine List.pairwise_cons.mpr ⟨?_, ih hys fun z hz => hcame z (List.mem_cons_of_mem y hz)⟩
      intro z hz
      rcases List.mem_cons.mp ((insertAfter_perm le x ys).mem_iff.mp hz) with rfl | hz
      · exact ⟨hle, fun _ => hcame y List.mem_cons_self⟩
      · exact hy z hz
    · rename_i hle
      have hxy : le x y = true := (total x y).resolve_right hle
      refine List.pairwise_cons.mpr ⟨?_, h⟩
      intro z hz
      rcases List.mem_cons.mp hz with rfl | hz
      · exact ⟨hxy, fun hyx => absurd hyx hle⟩
      · obtain ⟨hyz, _⟩ := hy z hz
        exact ⟨trans x y z hxy hyz, fun hzx => absurd (trans y z x hyz hzx) hle⟩

theorem foldl_insertAfter_stable (xs : List α) {sorted : List α}
    (h : sorted.Pairwise (StableBefore le came)) (hxs : xs.Pairwise came)
    (hcame : ∀ y ∈ sorted, ∀ x ∈ xs, came y x) :
    (xs.foldl (fun sorted x => insertAfter le x sorted) sorted).Pairwise
      (StableBefore le came) := by
  induction xs generalizing sorted with
  | nil => exact h
  | cons x xs ih =>
    obtain ⟨hx, hxs⟩ := List.pairwise_cons.mp hxs
    refine ih (insertAfter_stable total trans x h fun y hy => hcame y hy x List.mem_cons_self)
      hxs ?_
    intro y hy z hz
    rcases List.mem_cons.mp ((insertAfter_perm le x sorted).mem_iff.mp hy) with rfl | hy
    · exact hx z hz
    · exact hcame y hy z (List.mem_cons_of_mem x hz)

/-- In the sorted list every element may stand before those behind it, and elements that may stand
either way are in the order in which they came. -/
theorem insertionSort_stable {xs : List α} (h : xs.Pairwise came) :
    (insertionSort le xs).Pairwise (StableBefore le came) :=
  foldl_insertAfter_stable total trans xs List.Pairwise.nil h fun _ hy => absurd hy (by simp)

/-- In the sorted list every element may stand before those behind it. -/
theorem insertionSort_pairwise (xs : List α) : (insertionSort le xs).Pairwise (le · ·) :=
  (insertionSort_stable total trans (List.pairwise_of_forall fun _ _ => trivial)).imp And.left

end Order

end Lexicon.Sorting
