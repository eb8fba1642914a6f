/-
Lexicon.Proofs.Sorting.Exchanges — splitting a range in its array is splitting it as a list.

An array `Stores` a list of items, each of which tells what is left of the string of its element. A
range is told by what stands before it and behind it in the list, and exchanging two elements
exchanges two items. The two ends of a sweep do step by step what `sweep` does: what is still to be
read determines the rest of it (`Sweeps`), whatever the lists hold behind that. Exchanging the
parked elements into the middle turns what they pass by one place each (`settleLeft?_spec`), and so
the parts of the range are those of the list (`partition?_spec`).
-/
import Lexicon.Proofs.Sorting.Strings
import Lexicon.Sorting.InPlace
import Mathlib.Data.List.Rotate

namespace Lexicon.Sorting

variable {α : Type}

/-! ## Arrays of items -/

/-- An array holds the elements of some items, in their order. -/
def Stores (items : Array α) (xs : List (List UInt8 × α)) : Prop :=
  items.toList = xs.map (·.2)

variable {items : Array α} {xs A B C : List (List UInt8 × α)} {x y : List UInt8 × α} {i j : Nat}

theorem Stores.size_eq (h : Stores items xs) : items.size = xs.length := by
  rw [← Array.length_toList, h, List.length_map]

theorem Stores.getElem? (h : Stores items (A ++ x :: B)) (hi : i = A.length) :
    items[i]? = some x.2 := by
  rw [← Array.getElem?_toList, h, hi, List.map_append, List.map_cons,
    List.getElem?_append_right (by rw [List.length_map]), List.length_map, Nat.sub_self]
  rfl

theorem set_set_append {β : Type} (front mid back : List β) (a b : β) :
    ((front ++ a :: (mid ++ b :: back)).set front.length b).set (front.length + 1 + mid.length) a
      = front ++ b :: (mid ++ a :: back) := by
  have hmid : front.length + 1 + mid.length - front.length = mid.length + 1 := by omega
  rw [List.set_append_right _ _ (Nat.le_refl _), Nat.sub_self, List.set_cons_zero,
    List.set_append_right _ _ (by omega), hmid, List.set_cons_succ,
    List.set_append_right _ _ (Nat.le_refl _), Nat.sub_self, List.set_cons_zero]

/-- Exchanging two elements exchanges their items. -/
theorem Stores.swap? (h : Stores items (A ++ x :: (B ++ y :: C))) (hi : i = A.length)
    (hj : j = A.length + 1 + B.length) :
    ∃ items', swap? items i j = some items' ∧ Stores items' (A ++ y :: (B ++ x :: C)) := by
  have hsize := h.size_eq
  simp only [List.length_append, List.length_cons] at hsize
  have hx := h.getElem? hi
  have hsplit : A ++ x :: (B ++ y :: C) = (A ++ x :: B) ++ y :: C := by simp
  have hy : items[j]? = some y.2 := by
    rw [hsplit] at h
    exact h.getElem? (by rw [hj, List.length_append, List.length_cons]; omega)
  have hilt : i < items.size := by omega
  have hjlt : j < items.size := by omega
  rw [Array.getElem?_eq_getElem hilt] at hx
  rw [Array.getElem?_eq_getElem hjlt] at hy
  refine ⟨_, dif_pos ⟨hilt, hjlt⟩, ?_⟩
  have hset := set_set_append (A.map (·.2)) (B.map (·.2)) (C.map (·.2)) x.2 y.2
  rw [List.length_map, List.length_map, ← hj, ← hi] at hset
  rw [Stores, Array.toList_swap, Option.some.inj hx, Option.some.inj hy, h]
  simpa only [List.map_append, List.map_cons] using hset

theorem minus?_eq_some (h : j ≤ i) : minus? i j = some (i - j) :=
  if_pos h

theorem swap?_comm (items : Array α) (i j : Nat) : swap? items i j = swap? items j i := by
  unfold Sorting.swap?
  by_cases h : i < items.size ∧ j < items.size
  · rw [dif_pos h, dif_pos h.symm, Array.swap_comm]
  · rw [dif_neg h, dif_neg (mt And.symm h)]

theorem Stores.swap?_self (h : Stores items (A ++ x :: B)) (hi : i = A.length) :
    Sorting.swap? items i i = some items := by
  have hsize := h.size_eq
  simp only [List.length_append, List.length_cons] at hsize
  have hlt : i < items.size := by omega
  rw [Sorting.swap?, dif_pos ⟨hlt, hlt⟩]
  congr 1
  apply Array.toList_inj.mp
  rw [Array.toList_swap, List.set_set]
  exact List.set_getElem_self hlt

/-! ## What is still to be read -/

/-- A sweep that still has to read some elements ends with the given sides. -/
def Sweeps {β : Type} (compare : β → Ordering) (held : Option β) (unread : List β)
    (left right : Side β) (result : Side β × Side β) : Prop :=
  ∀ more more', sweep compare unread.length held (unread ++ more) (unread.reverse ++ more')
    left right = result

/-- The left end reads the first of the elements. -/
theorem sweep_cons {β : Type} (compare : β → Ordering) (a : β) (unread more more' : List β)
    (left right : Side β) :
    sweep compare (a :: unread).length none (a :: unread ++ more) ((a :: unread).reverse ++ more')
        left right
      = match compare a with
        | .lt => sweep compare unread.length none (unread ++ more) (unread.reverse ++ a :: more')
            (left.keep a) right
        | .eq => sweep compare unread.length none (unread ++ more) (unread.reverse ++ a :: more')
            (left.setAside a) right
        | .gt => sweep compare unread.length (some a) (unread ++ more)
            (unread.reverse ++ a :: more') left right := by
  rw [List.reverse_cons, List.append_assoc, List.length_cons, List.cons_append, sweep]
  rfl

/-- While an element is held the right end reads the last of the others. -/
theorem sweep_concat {β : Type} (compare : β → Ordering) (a b : β) (unread more more' : List β)
    (left right : Side β) :
    sweep compare (unread ++ [b]).length (some a) (unread ++ [b] ++ more)
        ((unread ++ [b]).reverse ++ more') left right
      = match compare b with
        | .lt => sweep compare unread.length none (unread ++ b :: more) (unread.reverse ++ more')
            (left.keep b) (right.keep a)
        | .eq => sweep compare unread.length (some a) (unread ++ b :: more)
            (unread.reverse ++ more') left (right.setAside b)
        | .gt => sweep compare unread.length (some a) (unread ++ b :: more)
            (unread.reverse ++ more') left (right.keep b) := by
  have hback : (unread ++ [b]).reverse ++ more' = b :: (unread.reverse ++ more') := by simp
  rw [hback, List.append_assoc, List.length_append, List.length_singleton, sweep]
  rfl

namespace Sweeps

variable {β : Type} {compare : β → Ordering} {a b : β} {unread : List β} {left right : Side β}
  {result : Side β × Side β}

theorem nil : Sweeps compare none [] left right (left, right) := by
  intro more more'
  simp only [List.length_nil, sweep]

theorem nil_held : Sweeps compare (some a) [] left right (left, right.keep a) := by
  intro more more'
  simp only [List.length_nil, sweep]

theorem keep_left (ha : compare a = .lt)
    (h : Sweeps compare none unread (left.keep a) right result) :
    Sweeps compare none (a :: unread) left right result := by
  intro more more'
  rw [sweep_cons, ha]
  exact h more _

theorem setAside_left (ha : compare a = .eq)
    (h : Sweeps compare none unread (left.setAside a) right result) :
    Sweeps compare none (a :: unread) left right result := by
  intro more more'
  rw [sweep_cons, ha]
  exact h more _

theorem hold (ha : compare a = .gt) (h : Sweeps compare (some a) unread left right result) :
    Sweeps compare none (a :: unread) left right result := by
  intro more more'
  rw [sweep_cons, ha]
  exact h more _

theorem keep_right (hb : compare b = .gt)
    (h : Sweeps compare (some a) unread left (right.keep b) result) :
    Sweeps compare (some a) (unread ++ [b]) left right result := by
  intro more more'
  rw [sweep_concat, hb]
  exact h _ more'

theorem setAside_right (hb : compare b = .eq)
    (h : Sweeps compare (some a) unread left (right.setAside b) result) :
    Sweeps compare (some a) (unread ++ [b]) left right result := by
  intro more more'
  rw [sweep_concat, hb]
  exact h _ more'

theorem exchange (hb : compare b = .lt)
    (h : Sweeps compare none unread (left.keep b) (right.keep a) result) :
    Sweeps compare (some a) (unread ++ [b]) left right result := by
  intro more more'
  rw [sweep_concat, hb]
  exact h _ more'

end Sweeps

/-! ## The two ends -/

/-- How a side at the left end of a range lies in the array. -/
def Side.fromLeft {β : Type} (s : Side β) : List β :=
  s.same.reverse ++ s.kept.toList

/-- How a side at the right end of a range lies in the array. -/
def Side.fromRight {β : Type} (s : Side β) : List β :=
  s.kept.toList.reverse ++ s.same

variable {s : Side (List UInt8 × α)}

theorem Side.fromLeft_keep (s : Side α) (a : α) : (s.keep a).fromLeft = s.fromLeft ++ [a] := by
  rw [fromLeft, fromLeft, List.append_assoc, ← Line.toList_push]
  rfl

theorem Side.fromRight_keep (s : Side α) (a : α) : (s.keep a).fromRight = a :: s.fromRight := by
  have hpush : (s.keep a).kept.toList = s.kept.toList ++ [a] := Line.toList_push s.kept a
  rw [fromRight, hpush, List.reverse_append]
  rfl

theorem Side.length_kept_keep (s : Side α) (a : α) :
    (s.keep a).kept.toList.length = s.kept.toList.length + 1 := by
  have hpush : (s.keep a).kept.toList = s.kept.toList ++ [a] := Line.toList_push s.kept a
  rw [hpush, List.length_append]
  rfl

theorem Side.length_kept_setAside (s : Side α) (a : α) :
    (s.setAside a).kept.toList.length = s.kept.toList.length :=
  s.kept.turn_perm.length_eq

theorem Side.length_fromLeft_setAside (s : Side α) (a : α) :
    (s.setAside a).fromLeft.length = s.fromLeft.length + 1 := by
  have hsame : (s.setAside a).same = a :: s.same := rfl
  simp only [fromLeft, s.length_kept_setAside a, hsame, List.length_append, List.length_reverse,
    List.length_cons]
  omega

/-- Parked at the left end an element changes places with the first that the side keeps. -/
theorem Stores.parkLeft (h : Stores items (A ++ (s.fromLeft ++ x :: C)))
    (hi : i = A.length + s.fromLeft.length) (hj : j = A.length + s.same.length) :
    ∃ items', Sorting.swap? items i j = some items'
      ∧ Stores items' (A ++ ((s.setAside x).fromLeft ++ C)) := by
  rw [Side.fromLeft, List.length_append, List.length_reverse] at hi
  rw [Side.fromLeft] at h
  cases hkept : s.kept.toList with
  | nil =>
    have hturn : (s.setAside x).kept.toList = [] := Line.toList_turn_of_nil hkept
    rw [hkept] at h hi
    have hsplit : A ++ (s.same.reverse ++ [] ++ x :: C) = (A ++ s.same.reverse) ++ x :: C := by simp
    rw [hsplit] at h
    obtain rfl : i = j := by rw [hi, hj, List.length_nil, Nat.add_zero]
    refine ⟨items, h.swap?_self ?_, ?_⟩
    · rw [hj, List.length_append, List.length_reverse]
    · rw [Side.fromLeft, hturn]
      simpa [Side.setAside] using h
  | cons k K =>
    have hturn : (s.setAside x).kept.toList = K ++ [k] := Line.toList_turn_of_cons hkept
    rw [hkept] at h hi
    have hsplit : A ++ (s.same.reverse ++ k :: K ++ x :: C)
        = (A ++ s.same.reverse) ++ k :: (K ++ x :: C) := by simp
    rw [hsplit] at h
    obtain ⟨items', hswap, hstores⟩ := h.swap? (i := j) (j := i)
      (by rw [hj, List.length_append, List.length_reverse])
      (by rw [hi, List.length_append, List.length_reverse, List.length_cons]; omega)
    refine ⟨items', by rw [swap?_comm, hswap], ?_⟩
    rw [Side.fromLeft, hturn]
    simpa [Side.setAside] using hstores

/-- Parked at the right end an element changes places with the first that the side keeps. -/
theorem Stores.parkRight (h : Stores items (A ++ x :: (s.fromRight ++ B))) (hi : i = A.length)
    (hj : j = A.length + s.kept.toList.length) :
    ∃ items', Sorting.swap? items i j = some items'
      ∧ Stores items' (A ++ ((s.setAside x).fromRight ++ B)) := by
  rw [Side.fromRight] at h
  cases hkept : s.kept.toList with
  | nil =>
    have hturn : (s.setAside x).kept.toList = [] := Line.toList_turn_of_nil hkept
    rw [hkept] at h hj
    obtain rfl : i = j := by rw [hi, hj, List.length_nil, Nat.add_zero]
    refine ⟨items, h.swap?_self hi, ?_⟩
    rw [Side.fromRight, hturn]
    simpa [Side.setAside] using h
  | cons k K =>
    have hturn : (s.setAside x).kept.toList = K ++ [k] := Line.toList_turn_of_cons hkept
    rw [hkept] at h hj
    have hsplit : A ++ x :: ((k :: K).reverse ++ s.same ++ B)
        = A ++ x :: (K.reverse ++ k :: (s.same ++ B)) := by simp
    rw [hsplit] at h
    obtain ⟨items', hswap, hstores⟩ := h.swap? (j := j) hi
      (by rw [hj, List.length_reverse, List.length_cons]; omega)
    refine ⟨items', hswap, ?_⟩
    rw [Side.fromRight, hturn]
    simpa [Side.setAside] using hstores

/-- How the label of an item compares with a pivot. -/
def byLabel (p : Nat) (x : List UInt8 × α) : Ordering :=
  compare (label x.1) p

/-- At a depth the elements of some items show the labels of what is left of their strings. -/
def View.Labels (view : View α) (depth : Nat) (xs : List (List UInt8 × α)) : Prop :=
  ∀ x ∈ xs, view.label? x.2 depth = some (label x.1)

variable {view : View α} {depth p : Nat}

/-- The left end has read some elements, up to one above the pivot if there is one, and the sweep of
what is left ends like that of all. -/
structure LeftStop (p right : Nat) (A unread C : List (List UInt8 × α))
    (s s' : Side (List UInt8 × α)) (rest : List (List UInt8 × α)) (items : Array α) : Prop where
  stores : Stores items (A ++ (s'.fromLeft ++ (rest ++ C)))
  suffix : rest <:+ unread
  above : ∀ x, rest.head? = some x → p < label x.1
  right_eq : right = A.length + s'.fromLeft.length + rest.length
  sweeps : ∀ other result, Sweeps (byLabel p) none rest s' other result →
    Sweeps (byLabel p) none unread s other result

theorem LeftStop.cons {right : Nat} {unread rest : List (List UInt8 × α)}
    {s s' before : Side (List UInt8 × α)} (h : LeftStop p right A unread C s s' rest items)
    (hstep : ∀ other result, Sweeps (byLabel p) none unread s other result →
      Sweeps (byLabel p) none (x :: unread) before other result) :
    LeftStop p right A (x :: unread) C before s' rest items where
  stores := h.stores
  suffix := h.suffix.trans (List.suffix_cons x unread)
  above := h.above
  right_eq := h.right_eq
  sweeps other result hsweeps := hstep other result (h.sweeps other result hsweeps)

theorem scanLeft?_spec {same left right : Nat} (unread : List (List UInt8 × α))
    (h : Stores items (A ++ (s.fromLeft ++ (unread ++ C)))) (hlabels : view.Labels depth unread)
    (hleft : left = A.length + s.fromLeft.length) (hsame : same = A.length + s.same.length)
    (hright : right = left + unread.length) :
    ∃ items' s' rest, scanLeft? view depth p right items left same
        = some (items', A.length + s'.fromLeft.length, A.length + s'.same.length)
      ∧ LeftStop p right A unread C s s' rest items' := by
  induction unread generalizing items s left same with
  | nil =>
    have hdone : ¬left < right := by rw [hright, List.length_nil]; exact Nat.lt_irrefl _
    refine ⟨items, s, [], ?_, h, List.suffix_refl _, nofun, ?_, fun _ _ hsweeps => hsweeps⟩
    · rw [scanLeft?, if_neg hdone, hleft, hsame]
    · rw [hright, hleft]
  | cons x unread ih =>
    rw [List.length_cons] at hright
    have hlt : left < right := by omega
    have hget : items[left]? = some x.2 := by
      rw [List.cons_append, ← List.append_assoc] at h
      exact h.getElem? (by rw [hleft, List.length_append])
    have hlabel := hlabels x List.mem_cons_self
    have hrest : view.Labels depth unread := fun y hy => hlabels y (List.mem_cons_of_mem x hy)
    rw [scanLeft?, if_pos hlt, hget]
    simp only [Option.bind_eq_bind, Option.bind_some, hlabel]
    rcases Nat.lt_trichotomy (label x.1) p with hbelow | heq | habove
    · have hstores : Stores items (A ++ ((s.keep x).fromLeft ++ (unread ++ C))) := by
        rw [Side.fromLeft_keep]
        simpa using h
      have hlength : left + 1 = A.length + (s.keep x).fromLeft.length := by
        rw [Side.fromLeft_keep, List.length_append, hleft]
        rfl
      rw [if_neg (Nat.not_lt.mpr (Nat.le_of_lt hbelow)), if_neg (Nat.ne_of_lt hbelow)]
      obtain ⟨items', s', rest, hscan, hstop⟩ := ih hstores hrest hlength hsame (by omega)
      exact ⟨items', s', rest, hscan,
        hstop.cons fun _ _ hsweeps => hsweeps.keep_left (Nat.compare_eq_lt.mpr hbelow)⟩
    · obtain ⟨parked, hswap, hstores⟩ := h.parkLeft hleft hsame
      have hlength : left + 1 = A.length + (s.setAside x).fromLeft.length := by
        rw [Side.length_fromLeft_setAside, hleft]
        rfl
      have hsame' : same + 1 = A.length + (s.setAside x).same.length := by
        rw [hsame]
        rfl
      rw [if_neg (Nat.not_lt.mpr (Nat.le_of_eq heq)), if_pos heq, hswap, Option.bind_some]
      obtain ⟨items', s', rest, hscan, hstop⟩ := ih hstores hrest hlength hsame' (by omega)
      exact ⟨items', s', rest, hscan,
        hstop.cons fun _ _ hsweeps => hsweeps.setAside_left (Nat.compare_eq_eq.mpr heq)⟩
    · rw [if_pos habove, hleft, hsame]
      refine ⟨items, s, x :: unread, rfl, h, List.suffix_refl _, ?_, ?_, fun _ _ hsweeps => hsweeps⟩
      · intro y hy
        obtain rfl := Option.some.inj hy
        exact habove
      · rw [hright, hleft]
        rfl

/-- The right end has read some elements, up to one below the pivot if there is one, and the sweep
of what is left ends like that of all, while the left end holds an element. -/
structure RightStop (p : Nat) (A unread B : List (List UInt8 × α)) (x : List UInt8 × α)
    (s s' : Side (List UInt8 × α)) (rest : List (List UInt8 × α)) (items : Array α) : Prop where
  stores : Stores items (A ++ x :: (rest ++ (s'.fromRight ++ B)))
  before : rest <+: unread
  below : ∀ y, rest.getLast? = some y → label y.1 < p
  sweeps : ∀ other result, Sweeps (byLabel p) (some x) rest other s' result →
    Sweeps (byLabel p) (some x) unread other s result

theorem RightStop.concat {unread rest : List (List UInt8 × α)}
    {s s' before : Side (List UInt8 × α)} (h : RightStop p A unread B x s s' rest items)
    (hstep : ∀ other result, Sweeps (byLabel p) (some x) unread other s result →
      Sweeps (byLabel p) (some x) (unread ++ [y]) other before result) :
    RightStop p A (unread ++ [y]) B x before s' rest items where
  stores := h.stores
  before := h.before.trans (List.prefix_append unread [y])
  below := h.below
  sweeps other result hsweeps := hstep other result (h.sweeps other result hsweeps)

theorem scanRight?_spec {same left right : Nat} (unread : List (List UInt8 × α))
    (h : Stores items (A ++ x :: (unread ++ (s.fromRight ++ B))))
    (hlabels : view.Labels depth (x :: unread)) (hx : p < label x.1) (hleft : left = A.length)
    (hright : right = A.length + 1 + unread.length)
    (hsame : same = right + s.kept.toList.length) :
    ∃ items' s' rest, scanRight? view depth p left items right same
        = some (items', A.length + rest.length,
          A.length + 1 + rest.length + s'.kept.toList.length)
      ∧ RightStop p A unread B x s s' rest items' := by
  have hlt : left < right := by omega
  induction unread using List.reverseRecOn generalizing items s right same with
  | nil =>
    -- Only the held element is left, and it is above the pivot.
    have hget : items[right - 1]? = some x.2 := by
      refine h.getElem? ?_
      rw [hright]
      rfl
    have hdone : ¬left < right - 1 := by
      rw [hright, hleft]
      exact Nat.lt_irrefl _
    rw [scanRight?, if_pos hlt, hget]
    simp only [Option.bind_eq_bind, Option.bind_some, hlabels x List.mem_cons_self]
    rw [if_neg (Nat.not_lt.mpr (Nat.le_of_lt hx)), if_neg (Nat.ne_of_gt hx), scanRight?,
      if_neg hdone, hsame, hright]
    exact ⟨items, s, [], rfl, h, List.prefix_refl _, nofun, fun _ _ hsweeps => hsweeps⟩
  | append_singleton unread y ih =>
    rw [List.length_append, List.length_singleton] at hright
    have hsplit : A ++ x :: (unread ++ [y] ++ (s.fromRight ++ B))
        = (A ++ x :: unread) ++ y :: (s.fromRight ++ B) := by simp
    have hlength : right - 1 = (A ++ x :: unread).length := by
      rw [hright, List.length_append, List.length_cons]
      omega
    have hright' : right - 1 = A.length + 1 + unread.length := by omega
    have hlt' : left < right - 1 := by omega
    have hlabel := hlabels y (by simp)
    have hrest : view.Labels depth (x :: unread) := by
      intro z hz
      apply hlabels z
      rw [← List.cons_append]
      exact List.mem_append_left [y] hz
    rw [hsplit] at h
    rw [scanRight?, if_pos hlt, h.getElem? hlength]
    simp only [Option.bind_eq_bind, Option.bind_some, hlabel]
    rcases Nat.lt_trichotomy (label y.1) p with hbelow | heq | habove
    · rw [if_pos hbelow]
      refine ⟨items, s, unread ++ [y], ?_, ?_, List.prefix_refl _, ?_, fun _ _ hsweeps => hsweeps⟩
      · rw [hsame, hright, List.length_append, List.length_singleton]
        congr 3
        omega
      · rwa [← hsplit] at h
      · intro z hz
        rw [List.getLast?_concat] at hz
        obtain rfl := Option.some.inj hz
        exact hbelow
    · obtain ⟨parked, hswap, hstores⟩ := h.parkRight (j := same - 1) hlength (by omega)
      rw [List.append_assoc, List.cons_append] at hstores
      rw [if_neg (Nat.not_lt.mpr (Nat.le_of_eq heq.symm)), if_pos heq, minus?_eq_some (by omega),
        Option.bind_some, hswap, Option.bind_some]
      have hkept := s.length_kept_setAside y
      have hsame' : same - 1 = right - 1 + (s.setAside y).kept.toList.length := by omega
      obtain ⟨items', s', rest, hscan, hstop⟩ :=
        ih hstores hrest hright' hsame' hlt'
      exact ⟨items', s', rest, hscan,
        hstop.concat fun _ _ hsweeps => hsweeps.setAside_right (Nat.compare_eq_eq.mpr heq)⟩
    · have hstores : Stores items (A ++ x :: (unread ++ ((s.keep y).fromRight ++ B))) := by
        rw [Side.fromRight_keep]
        simpa using h
      have hkept := s.length_kept_keep y
      have hsame' : same = right - 1 + (s.keep y).kept.toList.length := by omega
      rw [if_neg (Nat.not_lt.mpr (Nat.le_of_lt habove)), if_neg (Nat.ne_of_gt habove)]
      obtain ⟨items', s', rest, hscan, hstop⟩ :=
        ih hstores hrest hright' hsame' hlt'
      exact ⟨items', s', rest, hscan,
        hstop.concat fun _ _ hsweeps => hsweeps.keep_right (Nat.compare_eq_gt.mpr habove)⟩

/-! ## The sweep -/

/-- The ends meet with every element on its side, and with the sides of the sweep of the list. -/
theorem sweep?_spec {left right sameLeft sameRight : Nat} {s t : Side (List UInt8 × α)}
    (unread : List (List UInt8 × α))
    (h : Stores items (A ++ (s.fromLeft ++ (unread ++ (t.fromRight ++ B)))))
    (hlabels : view.Labels depth unread) (hleft : left = A.length + s.fromLeft.length)
    (hsameLeft : sameLeft = A.length + s.same.length) (hright : right = left + unread.length)
    (hsameRight : sameRight = right + t.kept.toList.length) :
    ∃ items' s' t', sweep? view depth p items left right sameLeft sameRight
        = some (items', A.length + s'.fromLeft.length, A.length + s'.fromLeft.length,
          A.length + s'.same.length, A.length + s'.fromLeft.length + t'.kept.toList.length)
      ∧ Stores items' (A ++ (s'.fromLeft ++ (t'.fromRight ++ B)))
      ∧ Sweeps (byLabel p) none unread s t (s', t') := by
  induction hn : unread.length using Nat.strong_induction_on generalizing unread items left right
    sameLeft sameRight s t with
  | _ n ih =>
    obtain ⟨items₁, s', rest, hscan, hstop⟩ := scanLeft?_spec (p := p) unread h hlabels hleft
      hsameLeft hright
    rw [sweep?_eq, scan?, hscan]
    simp only [Option.bind_eq_bind, Option.bind_some]
    cases rest with
    | nil =>
      have hmeet : ¬A.length + s'.fromLeft.length < right := by
        rw [hstop.right_eq]
        exact Nat.lt_irrefl _
      rw [scanRight?, if_neg hmeet]
      simp only [Option.bind_some, if_neg hmeet]
      refine ⟨items₁, s', t, ?_, hstop.stores, hstop.sweeps _ _ .nil⟩
      rw [hsameRight, hstop.right_eq]
      rfl
    | cons x rest =>
      have hx : p < label x.1 := hstop.above x rfl
      have hfew := hstop.suffix.length_le
      have hmore := hstop.right_eq
      have hrest : view.Labels depth (x :: rest) := fun z hz => hlabels z (hstop.suffix.mem hz)
      have hstores := hstop.stores
      rw [List.cons_append, ← List.append_assoc] at hstores
      rw [List.length_cons] at hfew hmore
      have hleft' : A.length + s'.fromLeft.length = (A ++ s'.fromLeft).length :=
        List.length_append.symm
      have hright' : right = (A ++ s'.fromLeft).length + 1 + rest.length := by
        rw [← hleft']
        omega
      obtain ⟨items₂, t', rest', hscan', hstop'⟩ :=
        scanRight?_spec rest hstores hrest hx hleft' hright' hsameRight
      have hstores' := hstop'.stores
      rw [hscan', ← hleft']
      simp only [Option.bind_some]
      rcases rest'.eq_nil_or_concat' with rfl | ⟨rest'', y, rfl⟩
      · -- The right end comes to the held element and keeps it.
        rw [List.length_nil, Nat.add_zero, if_neg (Nat.lt_irrefl _)]
        refine ⟨items₂, s', t'.keep x, ?_, ?_, ?_⟩
        · rw [t'.length_kept_keep, Nat.add_zero, Nat.add_assoc, Nat.add_comm 1]
        · rw [Side.fromRight_keep]
          simpa using hstores'
        · exact hstop.sweeps _ _ (.hold (Nat.compare_eq_gt.mpr hx) (hstop'.sweeps _ _ .nil_held))
      · -- Both ends have stopped, and the elements at which they stand change places.
        have hy : label y.1 < p := hstop'.below y List.getLast?_concat
        have hfew' := hstop'.before.length_le
        rw [List.length_append, List.length_singleton] at hfew' ⊢
        rw [List.append_assoc rest'', List.singleton_append] at hstores'
        obtain ⟨items₃, hswap, hstores₃⟩ := hstores'.swap? hleft'
          (show A.length + s'.fromLeft.length + (rest''.length + 1) = _ by rw [← hleft']; omega)
        have hstores₄ : Stores items₃ (A ++ ((s'.keep y).fromLeft
            ++ (rest'' ++ ((t'.keep x).fromRight ++ B)))) := by
          rw [Side.fromLeft_keep, Side.fromRight_keep]
          simpa using hstores₃
        have hlabels' : view.Labels depth rest'' := by
          intro z hz
          exact hrest z (List.mem_cons_of_mem x (hstop'.before.mem (List.mem_append_left [y] hz)))
        have hlength : A.length + s'.fromLeft.length + 1
            = A.length + (s'.keep y).fromLeft.length := by
          rw [Side.fromLeft_keep, List.length_append]
          rfl
        have hright'' : A.length + s'.fromLeft.length + (rest''.length + 1)
            = A.length + s'.fromLeft.length + 1 + rest''.length := by omega
        have hsame'' :
            A.length + s'.fromLeft.length + 1 + (rest''.length + 1) + t'.kept.toList.length
              = A.length + s'.fromLeft.length + (rest''.length + 1)
                + (t'.keep x).kept.toList.length := by
          rw [t'.length_kept_keep]
          omega
        rw [if_pos (by omega), hswap, Option.bind_some]
        obtain ⟨items', s'', t'', hsweep, hstores'', hsweeps⟩ := ih rest''.length (by omega) rest''
          hstores₄ hlabels' hlength rfl hright'' hsame'' rfl
        refine ⟨items', s'', t'', hsweep, hstores'', ?_⟩
        exact hstop.sweeps _ _ (.hold (Nat.compare_eq_gt.mpr hx)
          (hstop'.sweeps _ _ (.exchange (Nat.compare_eq_lt.mpr hy) hsweeps)))

/-! ## The parts -/

theorem reverse_rotateRight {β : Type} (xs : List β) (n : Nat) :
    (xs.rotateRight n).reverse = xs.reverse.rotate n := by
  by_cases h : xs.length ≤ 1
  · have hsame : xs.rotateRight n = xs := if_pos h
    cases xs with
    | nil => rw [hsame, List.reverse_nil, List.rotate_nil]
    | cons a xs =>
      obtain rfl : xs = [] := List.length_eq_zero_iff.mp (by simpa using h)
      rw [hsame, List.reverse_singleton, List.rotate_singleton]
  · have hturned : xs.rotateRight n
        = xs.drop (xs.length - n % xs.length) ++ xs.take (xs.length - n % xs.length) := if_neg h
    have hlt : n % xs.length < xs.length := Nat.mod_lt _ (by omega)
    have hback : xs.length - (xs.length - n % xs.length) = n % xs.length := by omega
    rw [hturned, List.reverse_append, List.reverse_take, List.reverse_drop, hback,
      List.rotate_eq_drop_append_take_mod, List.length_reverse]

/-- At the left end the parked elements get behind the others, which turn by one place each. -/
theorem settleLeft?_spec {l left same : Nat} (parked others : List (List UInt8 × α))
    (h : Stores items (A ++ (parked ++ (others ++ C)))) (hl : l = A.length)
    (hsame : same = A.length + parked.length)
    (hleft : left = A.length + parked.length + others.length) :
    ∃ items', settleLeft? l items left same = some (items', A.length + others.length)
      ∧ Stores items' (A ++ ((others.reverse.rotate parked.length).reverse ++ (parked ++ C))) := by
  induction parked using List.reverseRecOn generalizing items others C left same with
  | nil =>
    rw [List.length_nil, Nat.add_zero] at hsame hleft
    rw [settleLeft?, hl, hsame, hleft, if_neg (Nat.lt_irrefl _), List.length_nil, List.rotate_zero,
      List.reverse_reverse]
    exact ⟨items, rfl, h⟩
  | append_singleton parked x ih =>
    rw [List.length_append, List.length_singleton] at hsame hleft
    rw [settleLeft?, if_pos (by omega), minus?_eq_some (by omega)]
    simp only [Option.bind_eq_bind, Option.bind_some]
    rcases others.eq_nil_or_concat' with rfl | ⟨others, y, rfl⟩
    · have hsplit : A ++ (parked ++ [x] ++ ([] ++ C)) = (A ++ parked) ++ x :: C := by simp
      have hboth : left - 1 = same - 1 := by rw [hleft, hsame, List.length_nil, Nat.add_zero]
      have hplace : same - 1 = A.length + parked.length := by omega
      rw [hsplit] at h
      rw [hboth, h.swap?_self (hplace.trans List.length_append.symm), Option.bind_some]
      rw [List.append_assoc] at h
      obtain ⟨items', hsettle, hstores⟩ := ih [] h hplace hplace
      refine ⟨items', hsettle, ?_⟩
      rw [List.reverse_nil, List.rotate_nil] at hstores ⊢
      rwa [List.append_assoc]
    · have hsplit : A ++ (parked ++ [x] ++ (others ++ [y] ++ C))
          = (A ++ parked) ++ x :: (others ++ y :: C) := by simp
      rw [List.length_append, List.length_singleton] at hleft
      have hplace : same - 1 = A.length + parked.length := by omega
      have hplace' : left - 1 = A.length + parked.length + (y :: others).length := by
        rw [List.length_cons]
        omega
      rw [hsplit] at h
      obtain ⟨swapped, hswap, hswapped⟩ := h.swap? (hplace.trans List.length_append.symm)
        (show left - 1 = _ by rw [List.length_append]; omega)
      have hswapped' : Stores swapped (A ++ (parked ++ (y :: others ++ x :: C))) := by
        simpa using hswapped
      rw [hswap, Option.bind_some]
      obtain ⟨items', hsettle, hstores⟩ := ih _ hswapped' hplace hplace'
      refine ⟨items', ?_, ?_⟩
      · rw [hsettle]
        simp
      · rw [List.length_append, List.length_singleton, List.reverse_append, List.reverse_singleton,
          List.singleton_append, List.rotate_cons_succ, List.append_assoc, List.singleton_append]
        rwa [List.reverse_cons] at hstores

/-- At the right end the parked elements get before the others, which turn by one place each. -/
theorem settleRight?_spec {r right same : Nat} (others parked : List (List UInt8 × α))
    (h : Stores items (A ++ (others ++ (parked ++ C))))
    (hr : r = A.length + others.length + parked.length)
    (hsame : same = A.length + others.length) (hright : right = A.length) :
    ∃ items', settleRight? r items right same = some (items', A.length + parked.length)
      ∧ Stores items' (A ++ (parked ++ (others.rotate parked.length ++ C))) := by
  induction parked generalizing items A others right same with
  | nil =>
    rw [List.length_nil, Nat.add_zero] at hr
    rw [settleRight?, hr, hsame, hright, if_neg (Nat.lt_irrefl _), List.length_nil,
      List.rotate_zero, Nat.add_zero]
    exact ⟨items, rfl, h⟩
  | cons x parked ih =>
    rw [List.length_cons] at hr
    rw [settleRight?, if_pos (by omega)]
    simp only [Option.bind_eq_bind]
    have hrest : ∀ {items : Array α} {turned : List (List UInt8 × α)},
        Stores items (A ++ x :: (turned ++ (parked ++ C))) → turned.length = others.length →
        ∃ items', settleRight? r items (right + 1) (same + 1)
            = some (items', A.length + (x :: parked).length)
          ∧ Stores items' (A ++ (x :: parked ++ (turned.rotate parked.length ++ C))) := by
      intro items turned hstores hlength
      rw [← List.singleton_append, ← List.append_assoc] at hstores
      have hend : r = (A ++ [x]).length + turned.length + parked.length := by
        rw [List.length_append, List.length_singleton, hlength]
        omega
      have hplace : same + 1 = (A ++ [x]).length + turned.length := by
        rw [List.length_append, List.length_singleton, hlength]
        omega
      have hplace' : right + 1 = (A ++ [x]).length := by
        rw [hright, List.length_append, List.length_singleton]
      obtain ⟨items', hsettle, hstores'⟩ := ih turned hstores hend hplace hplace'
      refine ⟨items', ?_, ?_⟩
      · rw [hsettle, List.length_append, List.length_singleton, List.length_cons, Nat.add_assoc,
          Nat.add_comm 1]
      · simpa using hstores'
    cases others with
    | nil =>
      have hboth : same = right := by rw [hsame, hright, List.length_nil, Nat.add_zero]
      have hstores : Stores items (A ++ x :: ([] ++ (parked ++ C))) := h
      rw [hboth, hstores.swap?_self hright, Option.bind_some]
      rw [hboth] at hrest
      obtain ⟨items', hsettle, hstores'⟩ := hrest hstores rfl
      exact ⟨items', hsettle, by simpa using hstores'⟩
    | cons y others =>
      have hstores : Stores items (A ++ y :: (others ++ x :: (parked ++ C))) := by simpa using h
      obtain ⟨swapped, hswap, hswapped⟩ := hstores.swap? (j := same) hright
        (by rw [hsame, List.length_cons]; omega)
      have hswapped' : Stores swapped (A ++ x :: (others ++ [y] ++ (parked ++ C))) := by
        simpa using hswapped
      rw [swap?_comm, hswap, Option.bind_some]
      obtain ⟨items', hsettle, hstores'⟩ := hrest hswapped' (by simp)
      refine ⟨items', hsettle, ?_⟩
      rwa [List.length_cons, List.rotate_cons_succ]

theorem Side.reverse_settled {β : Type} (s : Side β) :
    s.settled.reverse = s.kept.toList.reverse.rotate s.same.length :=
  reverse_rotateRight s.kept.toList s.same.length

/-- The parts of a list are told by the sides of its sweep. -/
theorem splitAt_of_sweeps {s t : Side (List UInt8 × α)}
    (h : Sweeps (byLabel p) none xs {} {} (s, t)) :
    splitAt p xs = ⟨s.settled, s.same.reverse ++ t.same, t.settled.reverse⟩ := by
  have hsides := h [] []
  rw [List.append_nil, List.append_nil] at hsides
  have hparts : splitAt p xs = partition (byLabel p) xs := rfl
  rw [hparts, partition, hsides]

/-- A range is split in its array as it is split as a list. -/
theorem partition?_spec {l r : Nat} (h : Stores items (A ++ (xs ++ B)))
    (hlabels : view.Labels depth xs) (hl : l = A.length) (hr : r = A.length + xs.length) :
    ∃ items', partition? view depth p l r items
        = some (items', A.length + (splitAt p xs).below.length,
          A.length + ((splitAt p xs).below.length + (splitAt p xs).same.length))
      ∧ Stores items' (A ++ ((splitAt p xs).below ++ ((splitAt p xs).same
        ++ ((splitAt p xs).above ++ B)))) := by
  have hbegin : Stores items (A ++ (({} : Side (List UInt8 × α)).fromLeft
      ++ (xs ++ (({} : Side (List UInt8 × α)).fromRight ++ B)))) := h
  have hnone : r = r + ({} : Side (List UInt8 × α)).kept.toList.length := rfl
  obtain ⟨swept, s, t, hsweep, hswept, hsweeps⟩ :=
    sweep?_spec (p := p) xs hbegin hlabels hl hl (hr.trans (by rw [hl])) hnone
  have hsplit := splitAt_of_sweeps hsweeps
  have hlength := (splitAt_perm p xs).length_eq
  have hkept := s.settled_perm.length_eq
  have hkept' := t.settled_perm.length_eq
  rw [hsplit] at hlength ⊢
  simp only [List.length_append, List.length_reverse] at hlength ⊢
  -- First the left side is settled, then the right one.
  have hleft : Stores swept (A ++ (s.same.reverse ++ (s.kept.toList ++ (t.fromRight ++ B)))) := by
    rw [Side.fromLeft, List.append_assoc] at hswept
    exact hswept
  have hsame : A.length + s.same.length = A.length + s.same.reverse.length := by
    rw [List.length_reverse]
  have hmeet : A.length + s.fromLeft.length
      = A.length + s.same.reverse.length + s.kept.toList.length := by
    rw [Side.fromLeft, List.length_append, Nat.add_assoc]
  obtain ⟨half, hsettle, hhalf⟩ :=
    settleLeft?_spec s.same.reverse s.kept.toList hleft hl hsame hmeet
  rw [List.length_reverse, ← Side.reverse_settled, List.reverse_reverse] at hhalf
  have hright : Stores half ((A ++ (s.settled ++ s.same.reverse))
      ++ (t.kept.toList.reverse ++ (t.same ++ B))) := by
    simpa [Side.fromRight] using hhalf
  have hplace : A.length + s.fromLeft.length = (A ++ (s.settled ++ s.same.reverse)).length := by
    simp only [Side.fromLeft, List.length_append, List.length_reverse]
    omega
  have hsame' : A.length + s.fromLeft.length + t.kept.toList.length
      = (A ++ (s.settled ++ s.same.reverse)).length + t.kept.toList.reverse.length := by
    rw [hplace, List.length_reverse]
  have hend : r = (A ++ (s.settled ++ s.same.reverse)).length + t.kept.toList.reverse.length
      + t.same.length := by
    simp only [List.length_append, List.length_reverse]
    omega
  obtain ⟨items', hsettle', hitems'⟩ :=
    settleRight?_spec t.kept.toList.reverse t.same hright hend hsame' hplace
  rw [← Side.reverse_settled] at hitems'
  refine ⟨items', ?_, by simpa using hitems'⟩
  rw [partition?, hsweep]
  simp only [Option.bind_eq_bind, Option.bind_some, hsettle, hsettle']
  simp only [List.length_append, List.length_reverse, hkept, Nat.add_assoc]

end Lexicon.Sorting
