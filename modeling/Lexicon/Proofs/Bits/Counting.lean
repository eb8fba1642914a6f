/-
Lexicon.Proofs.Bits.Counting — counting the bits of one kind in a list.

The answers of a bit vector are told by two notions on the list of its bits.
`countBefore kind bits i` is the number of bits of a kind before position `i`,
and `SelectsAt kind bits k p` says that position `p` holds the bit of that kind
with `k` such bits before it. `SelectsAt.unique` and `exists_selectsAt` say that
there is exactly one such position for every `k` below the count.
-/
import Lexicon.Arithmetic
import Mathlib.Data.Bool.Count

namespace Lexicon

/-- The number of bits of one kind before position `i`. -/
def countBefore (kind : Bool) (bits : List Bool) (i : Nat) : Nat :=
  (bits.take i).count kind

section

variable {kind : Bool} {bits : List Bool}

@[simp] theorem countBefore_zero : countBefore kind bits 0 = 0 := by
  simp [countBefore]

/-- Past position `i` the count goes on in what is left of the list. -/
theorem countBefore_add (i j : Nat) :
    countBefore kind bits (i + j) = countBefore kind bits i + countBefore kind (bits.drop i) j := by
  rw [countBefore, List.take_add, List.count_append]
  rfl

@[simp] theorem countBefore_append_length (front back : List Bool) :
    countBefore kind (front ++ back) front.length = front.count kind := by
  simp [countBefore]

theorem countBefore_append_of_le {front back : List Bool} {i : Nat} (h : i ≤ front.length) :
    countBefore kind (front ++ back) i = countBefore kind front i := by
  rw [countBefore, List.take_append_of_le_length h]
  rfl

/-- At and past the end the count is that of the whole list. -/
theorem countBefore_of_length_le {i : Nat} (h : bits.length ≤ i) :
    countBefore kind bits i = bits.count kind := by
  rw [countBefore, List.take_of_length_le h]

/-- A bit adds one to the count of its own kind. -/
theorem countBefore_succ {b : Bool} {i : Nat} (h : bits[i]? = some b) :
    countBefore kind bits (i + 1) = countBefore kind bits i + if b = kind then 1 else 0 := by
  rw [countBefore, List.take_add_one, h, List.count_append]
  simp [countBefore, List.count_singleton]

theorem countBefore_mono {i j : Nat} (h : i ≤ j) :
    countBefore kind bits i ≤ countBefore kind bits j := by
  obtain ⟨d, rfl⟩ := Nat.exists_eq_add_of_le h
  rw [countBefore_add]
  exact Nat.le_add_right _ _

theorem countBefore_le_count (i : Nat) : countBefore kind bits i ≤ bits.count kind :=
  (List.take_sublist i bits).count_le kind

theorem countBefore_le (i : Nat) : countBefore kind bits i ≤ i := by
  have h := List.count_le_length (a := kind) (l := bits.take i)
  rw [List.length_take] at h
  exact Nat.le_trans h (Nat.min_le_left i bits.length)

/-- Inside the list every bit is of one kind or of the other. -/
theorem countBefore_true_add_false {i : Nat} (h : i ≤ bits.length) :
    countBefore true bits i + countBefore false bits i = i := by
  have hlength : (bits.take i).length = i := by
    rw [List.length_take]
    omega
  have hcount := List.count_true_add_count_false (bits.take i)
  rwa [hlength] at hcount

/-- Between two positions there are no more bits of a kind than positions. -/
theorem countBefore_add_le (i d : Nat) :
    countBefore kind bits (i + d) ≤ countBefore kind bits i + d := by
  rw [countBefore_add]
  exact Nat.add_le_add_left (countBefore_le d) _

end

/-! ## The bit with so many before it -/

/-- Position `p` holds a bit of the kind, and `k` bits of the kind stand before it. -/
structure SelectsAt (kind : Bool) (bits : List Bool) (k p : Nat) : Prop where
  bit : bits[p]? = some kind
  count : countBefore kind bits p = k

namespace SelectsAt

variable {kind : Bool} {bits : List Bool} {k k' p p' : Nat}

theorem lt_length (h : SelectsAt kind bits k p) : p < bits.length :=
  (List.getElem?_eq_some_iff.mp h.bit).1

/-- Behind the selected bit the count is one more. -/
theorem count_succ (h : SelectsAt kind bits k p) : countBefore kind bits (p + 1) = k + 1 := by
  rw [countBefore_succ h.bit, h.count, if_pos rfl]

theorem lt_count (h : SelectsAt kind bits k p) : k < bits.count kind := by
  have hle : countBefore kind bits (p + 1) ≤ bits.count kind := countBefore_le_count (p + 1)
  rw [h.count_succ] at hle
  exact hle

/-- A position has more than `k` bits of the kind before it exactly past the selected one. -/
theorem lt_countBefore_iff (h : SelectsAt kind bits k p) (i : Nat) :
    k < countBefore kind bits i ↔ p < i := by
  constructor
  · intro hk
    by_cases hi : i ≤ p
    · have hmono : countBefore kind bits i ≤ countBefore kind bits p := countBefore_mono hi
      rw [h.count] at hmono
      omega
    · omega
  · intro hp
    have hmono : countBefore kind bits (p + 1) ≤ countBefore kind bits i := countBefore_mono hp
    rw [h.count_succ] at hmono
    omega

/-- Selected bits stand in the order of their numbers. -/
theorem lt_iff (h : SelectsAt kind bits k p) (h' : SelectsAt kind bits k' p') :
    k < k' ↔ p < p' := by
  rw [← h.lt_countBefore_iff p', h'.count]

/-- No two positions hold the same selected bit. -/
theorem unique (h : SelectsAt kind bits k p) (h' : SelectsAt kind bits k p') : p = p' := by
  have hlt := h.lt_iff h'
  have hgt := h'.lt_iff h
  omega

end SelectsAt

/-- One more bit in front moves a selected bit, and its number if the two are of one kind. -/
theorem SelectsAt.cons {kind b : Bool} {bits : List Bool} {k p : Nat}
    (h : SelectsAt kind bits k p) :
    SelectsAt kind (b :: bits) (k + if b = kind then 1 else 0) (p + 1) := by
  refine ⟨by simpa using h.bit, ?_⟩
  rw [Nat.add_comm p 1, countBefore_add, Nat.add_comm k]
  congr 1
  · simp [countBefore, List.count_singleton]
  · exact h.count

/-- A selected bit is the first one of the list or stands behind it. -/
theorem SelectsAt.of_cons {kind b : Bool} {bits : List Bool} {k p : Nat}
    (h : SelectsAt kind (b :: bits) k p) :
    (p = 0 ∧ k = 0 ∧ b = kind) ∨
      ∃ k' p', SelectsAt kind bits k' p' ∧ p = p' + 1 ∧ k = k' + if b = kind then 1 else 0 := by
  cases p with
  | zero =>
    refine Or.inl ⟨rfl, ?_, by simpa using h.bit⟩
    rw [← h.count, countBefore_zero]
  | succ p =>
    have hbit : bits[p]? = some kind := by simpa using h.bit
    have hcons := SelectsAt.cons (b := b) ⟨hbit, rfl⟩
    refine Or.inr ⟨_, p, ⟨hbit, rfl⟩, rfl, ?_⟩
    rw [← h.count, hcons.count]

/-- Every number below the count has its position. -/
theorem exists_selectsAt {kind : Bool} (bits : List Bool) {k : Nat} (h : k < bits.count kind) :
    ∃ p, SelectsAt kind bits k p := by
  induction bits generalizing k with
  | nil => simp at h
  | cons b bits ih =>
    rw [List.count_cons] at h
    by_cases hb : b = kind
    · cases k with
      | zero => exact ⟨0, by simp [hb], countBefore_zero⟩
      | succ k =>
        have hk : k < bits.count kind := by simpa [hb] using h
        obtain ⟨p, hp⟩ := ih hk
        have hcons := hp.cons (b := b)
        rw [if_pos hb] at hcons
        exact ⟨p + 1, hcons⟩
    · have hk : k < bits.count kind := by simpa [hb] using h
      obtain ⟨p, hp⟩ := ih hk
      have hcons := hp.cons (b := b)
      rw [if_neg hb] at hcons
      exact ⟨p + 1, hcons⟩

/-- Bits appended to a list do not move the selected ones. -/
theorem SelectsAt.append {kind : Bool} {bits : List Bool} {k p : Nat}
    (h : SelectsAt kind bits k p) (more : List Bool) : SelectsAt kind (bits ++ more) k p := by
  have hp := h.lt_length
  refine ⟨?_, ?_⟩
  · rw [List.getElem?_append_left hp, h.bit]
  · rw [countBefore_append_of_le (Nat.le_of_lt hp), h.count]

end Lexicon
