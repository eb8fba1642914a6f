/-
Lexicon.Proofs.Sorting.InPlace — sorting an array in place is sorting its list.

A range holds items of which each tells what is left of its string, and at the depth of the range
the array shows just that (`View.Shows.label?_eq`, `View.Shows.compare?_eq`). In a short range an
element sinks to the place at which the list takes it, and the last comparison tells whether its
string is new (`Sunk.result_eq_iff`). A long range is split like its list (`partition?_spec`), and
each of its parts can be sorted while the others stand in any order (`PartsSort`), so all orders in
which they are sorted end alike. By induction on the bound of the nested splits, which is more than
what is left to read (`sortsRanges`), the array ends in the order of `sortItems`, and the counts of
the parts, of which no two share a string, add up to the number of different strings.
-/
import Lexicon.Proofs.Shape.Numbering
import Lexicon.Proofs.Sorting.Exchanges

namespace Lexicon.Sorting

variable {α : Type} {view : View α} {string : α → List UInt8}

/-! ## Reading -/

/-- A view reads the elements as the given strings. -/
structure View.Shows (view : View α) (string : α → List UInt8) : Prop where
  len : ∀ a, view.len a = (string a).length
  byte? : ∀ a i, view.byte? a i = (string a)[i]?

theorem View.Shows.label?_eq (h : view.Shows string) {a : α} {front rest : List UInt8}
    (ha : string a = front ++ rest) : view.label? a front.length = some (label rest) := by
  rw [View.label?, h.len, h.byte?, ha, List.length_append]
  cases rest with
  | nil => exact if_neg (Nat.lt_irrefl _)
  | cons b rest =>
    have hlt : front.length < front.length + (b :: rest).length :=
      Nat.lt_add_of_pos_right (Nat.succ_pos _)
    rw [if_pos hlt, List.getElem?_append_right (Nat.le_refl _), Nat.sub_self]
    rfl

theorem compare_cons (a b : UInt8) (s t : List UInt8) :
    compare (a :: s) (b :: t) = (compare a b).then (compare s t) :=
  List.compareLex_cons_cons

/-- Two elements that agree so far compare like what is left of their strings. -/
theorem View.Shows.compare?_eq (h : view.Shows string) {a b : α} {s : List UInt8} :
    ∀ {t front : List UInt8}, string a = front ++ s → string b = front ++ t →
    view.compare? a b front.length = some (compare s t) := by
  induction s with
  | nil =>
    intro t front ha hb
    rw [View.compare?, h.len, h.len, ha, hb]
    cases t with
    | nil => simp
    | cons y t => simp
  | cons x s ih =>
    intro t front ha hb
    rw [View.compare?, h.len, h.len, h.byte?, h.byte?, ha, hb]
    cases t with
    | nil => simp
    | cons y t =>
      have hx : (front ++ x :: s)[front.length]? = some x := by simp
      have hy : (front ++ y :: t)[front.length]? = some y := by simp
      have hs : front.length < (front ++ x :: s).length := by simp
      have ht : front.length < (front ++ y :: t).length := by simp
      rw [if_pos hs, if_pos ht, compare_cons]
      simp only [hx, hy, Option.bind_eq_bind, Option.bind_some]
      cases hxy : compare x y with
      | lt => rfl
      | gt => rfl
      | eq =>
        obtain rfl := Std.compare_eq_iff_eq.mp hxy
        have ha' : string a = (front ++ [x]) ++ s := by rw [ha, List.append_assoc]; rfl
        have hb' : string b = (front ++ [x]) ++ t := by rw [hb, List.append_assoc]; rfl
        have hrest := ih ha' hb'
        rwa [List.length_append, List.length_singleton] at hrest

theorem compare_eq_gt_iff : ∀ {s t : List UInt8}, compare s t = .gt ↔ bytesLe s t = false
  | [], [] => by decide
  | [], _ :: _ => iff_of_false nofun nofun
  | _ :: _, [] => iff_of_true rfl rfl
  | a :: s, b :: t => by
      rw [compare_cons, ← Bool.not_eq_true, bytesLe_cons]
      cases hab : compare a b with
      | lt =>
        have hlt := Std.compare_eq_lt.mp hab
        exact iff_of_false nofun (not_not.mpr (Or.inl hlt))
      | gt =>
        have hgt := Std.compare_eq_gt.mp hab
        refine iff_of_true rfl ?_
        rintro (hlt | ⟨rfl, _⟩)
        · exact UInt8.lt_asymm hgt hlt
        · exact UInt8.lt_irrefl a hgt
      | eq =>
        obtain rfl := Std.compare_eq_iff_eq.mp hab
        rw [Ordering.eq_then, compare_eq_gt_iff, ← Bool.not_eq_true]
        simp

/-! ## Inserting -/

variable {items : Array α} {front : List UInt8} {xs A B : List (List UInt8 × α)}
  {x : List UInt8 × α}

/-- Whether one item may stand before another. -/
def itemLe (x y : List UInt8 × α) : Bool :=
  bytesLe x.1 y.1

theorem itemLe_total (x y : List UInt8 × α) : itemLe x y = true ∨ itemLe y x = true :=
  bytesLe_total x.1 y.1

theorem itemLe_trans (x y z : List UInt8 × α) (hxy : itemLe x y = true) (hyz : itemLe y z = true) :
    itemLe x z = true :=
  bytesLe_trans x.1 y.1 z.1 hxy hyz

/-- An item is put between those that may stand before it and those that may not. -/
theorem insertAfter_eq {β : Type} {le : β → β → Bool} {a : β} {before behind : List β}
    (hbefore : ∀ b ∈ before, le b a = true) (hbehind : ∀ b ∈ behind, le b a = false) :
    insertAfter le a (before ++ behind) = before ++ a :: behind := by
  induction before with
  | nil =>
    cases behind with
    | nil => rfl
    | cons b behind =>
      rw [List.nil_append, insertAfter, hbehind b List.mem_cons_self]
      rfl
  | cons b before ih =>
    have hrest := ih fun c hc => hbefore c (List.mem_cons_of_mem b hc)
    rw [List.cons_append, insertAfter, if_pos (hbefore b List.mem_cons_self), hrest]
    rfl

/-- An element has sunk to behind the last of some others that may stand before it, and the last
comparison was with that one, or else with one behind which it may not stand, if there was any. -/
structure Sunk (sorted A B : List (List UInt8 × α)) (x : List UInt8 × α) (first result : Ordering)
    (before behind : List (List UInt8 × α)) (items : Array α) : Prop where
  stores : Stores items (A ++ (before ++ x :: (behind ++ B)))
  split : sorted = before ++ behind
  behind : ∀ y ∈ behind, itemLe y x = false
  result_of_none : before = [] → result = if sorted.isEmpty then first else .gt
  result_of_last : ∀ y, before.getLast? = some y → itemLe y x = true ∧ result = compare y.1 x.1

theorem sink?_spec (hview : view.Shows string) {l j : Nat} (first : Ordering)
    (sorted : List (List UInt8 × α)) (h : Stores items (A ++ (sorted ++ x :: B)))
    (hsorted : Carries string front sorted) (hx : string x.2 = front ++ x.1) (hl : l = A.length)
    (hj : j = sorted.length) :
    ∃ items' result before behind,
      sink? view front.length l j first items = some (items', result)
      ∧ Sunk sorted A B x first result before behind items' := by
  induction sorted using List.reverseRecOn generalizing items B j first with
  | nil =>
    rw [hj]
    exact ⟨items, first, [], [], rfl, h, rfl, nofun, fun _ => rfl, nofun⟩
  | append_singleton sorted y ih =>
    have hsplit : A ++ (sorted ++ [y] ++ x :: B) = (A ++ sorted) ++ y :: ([] ++ x :: B) := by simp
    have hplace : l + sorted.length = (A ++ sorted).length := by rw [hl, List.length_append]
    have hy : string y.2 = front ++ y.1 := hsorted y (by simp)
    rw [hsplit] at h
    have hnext : items[l + sorted.length + 1]? = some x.2 := by
      rw [← List.singleton_append, ← List.append_assoc] at h
      refine h.getElem? ?_
      rw [hplace]
      simp [Nat.add_assoc]
    rw [List.length_append, List.length_singleton] at hj
    rw [hj, sink?, h.getElem? hplace, hnext]
    simp only [Option.bind_eq_bind, Option.bind_some, hview.compare?_eq hy hx]
    by_cases hgt : compare y.1 x.1 = .gt
    · obtain ⟨swapped, hswap, hswapped⟩ := h.swap? (j := l + sorted.length + 1) hplace
        (by rw [hplace]; rfl)
      rw [List.nil_append, List.append_assoc] at hswapped
      rw [if_pos hgt, hgt, hswap, Option.bind_some]
      obtain ⟨items', result, before, behind, hsink, hsunk⟩ :=
        ih .gt hswapped (fun z hz => hsorted z (List.mem_append_left [y] hz)) rfl
      refine ⟨items', result, before, behind ++ [y], hsink, ?_, ?_, ?_, ?_, hsunk.result_of_last⟩
      · simpa using hsunk.stores
      · rw [hsunk.split, List.append_assoc]
      · intro z hz
        rcases List.mem_append.mp hz with hz | hz
        · exact hsunk.behind z hz
        · obtain rfl := List.mem_singleton.mp hz
          exact compare_eq_gt_iff.mp hgt
      · intro hnone
        rw [hsunk.result_of_none hnone, ite_self]
        simp
    · rw [if_neg hgt]
      refine ⟨items, _, sorted ++ [y], [], rfl, ?_, (List.append_nil _).symm, nofun, by simp, ?_⟩
      · rw [← hsplit] at h
        exact h
      · intro z hz
        rw [List.getLast?_concat] at hz
        obtain rfl := Option.some.inj hz
        exact ⟨Bool.of_not_eq_false (mt compare_eq_gt_iff.mpr hgt), rfl⟩

/-- The number of different strings of some items. -/
def different (xs : List (List UInt8 × α)) : Nat :=
  (xs.map (·.1)).toFinset.card

theorem different_perm {xs ys : List (List UInt8 × α)} (h : xs.Perm ys) :
    different xs = different ys := by
  rw [different, different, List.toFinset_eq_of_perm _ _ (h.map _)]

theorem different_cons (x : List UInt8 × α) (xs : List (List UInt8 × α)) :
    different (x :: xs) = if x.1 ∈ xs.map (·.1) then different xs else different xs + 1 := by
  rw [different, List.map_cons, List.toFinset_cons, Finset.card_insert_eq_ite]
  simp only [List.mem_toFinset]
  rfl

/-- The last comparison finds an equal string exactly if there is one. -/
theorem Sunk.result_eq_iff {sorted before behind : List (List UInt8 × α)} {result : Ordering}
    (h : Sunk sorted A B x .eq result before behind items) (hne : sorted ≠ [])
    (hsorted : sorted.Pairwise fun x y => itemLe x y = true) :
    result = .eq ↔ x.1 ∈ sorted.map (·.1) := by
  have hnot : ∀ y ∈ behind, y.1 ≠ x.1 := by
    intro y hy heq
    have hle := h.behind y hy
    rw [itemLe, heq, bytesLe_refl] at hle
    cases hle
  rcases before.eq_nil_or_concat' with rfl | ⟨before, y, rfl⟩
  · have hresult := h.result_of_none rfl
    rw [List.isEmpty_eq_false_iff.mpr hne, if_neg Bool.false_ne_true] at hresult
    rw [hresult, h.split]
    refine iff_of_false nofun ?_
    intro hmem
    obtain ⟨y, hy, heq⟩ := List.mem_map.mp hmem
    exact hnot y hy heq
  · obtain ⟨hle, hresult⟩ := h.result_of_last y List.getLast?_concat
    rw [hresult, Std.compare_eq_iff_eq, h.split]
    constructor
    · intro heq
      exact List.mem_map.mpr ⟨y, by simp, heq⟩
    · intro hmem
      obtain ⟨z, hz, heq⟩ := List.mem_map.mp hmem
      rcases List.mem_append.mp hz with hz | hz
      · rw [h.split, List.append_assoc] at hsorted
        rcases List.mem_append.mp hz with hz | hz
        · have hzy := (List.pairwise_append.mp hsorted).2.2 z hz y (by simp)
          rw [itemLe, heq] at hzy
          exact bytesLe_antisymm hle hzy
        · rwa [List.mem_singleton.mp hz] at heq
      · exact absurd heq (hnot z hz)

theorem Sunk.insertAfter_eq {sorted before behind : List (List UInt8 × α)} {first result : Ordering}
    (h : Sunk sorted A B x first result before behind items)
    (hsorted : sorted.Pairwise fun x y => itemLe x y = true) :
    insertAfter itemLe x sorted = before ++ x :: behind := by
  rw [h.split]
  refine Sorting.insertAfter_eq ?_ h.behind
  intro z hz
  rcases before.eq_nil_or_concat' with rfl | ⟨before, y, rfl⟩
  · cases hz
  · have hyx := (h.result_of_last y List.getLast?_concat).1
    rw [h.split, List.append_assoc] at hsorted
    rcases List.mem_append.mp hz with hz | hz
    · exact itemLe_trans z y x ((List.pairwise_append.mp hsorted).2.2 z hz y (by simp)) hyx
    · rwa [List.mem_singleton.mp hz]

/-- Inserting from some element on sorts the range, and counts the strings that are new. -/
theorem insertFrom?_spec (hview : view.Shows string) {l n i count : Nat}
    (rest : List (List UInt8 × α)) {sorted : List (List UInt8 × α)}
    (h : Stores items (A ++ (sorted ++ (rest ++ B)))) (hne : sorted ≠ [])
    (hsorted : sorted.Pairwise (StableBefore itemLe fun _ _ => True))
    (hcarries : Carries string front (sorted ++ rest)) (hl : l = A.length)
    (hi : i = sorted.length) (hn : n = sorted.length + rest.length)
    (hcount : count = different sorted) :
    ∃ items', insertFrom? view front.length l n i items count
        = some (items', different (sorted ++ rest))
      ∧ Stores items'
        (A ++ (rest.foldl (fun sorted x => insertAfter itemLe x sorted) sorted ++ B)) := by
  induction rest generalizing items sorted i count with
  | nil =>
    rw [insertFrom?, if_neg (by rw [hi, hn]; exact Nat.lt_irrefl _), hcount, List.append_nil]
    exact ⟨items, rfl, h⟩
  | cons x rest ih =>
    rw [List.length_cons] at hn
    have hpairwise := hsorted.imp And.left
    obtain ⟨sunk, result, before, behind, hsink, hsunk⟩ := sink?_spec (j := i) hview .eq sorted
      h (fun y hy => hcarries y (List.mem_append_left _ hy)) (hcarries x (by simp)) hl hi
    have hinsert := hsunk.insertAfter_eq hpairwise
    have hperm := insertAfter_perm itemLe x sorted
    have hstores : Stores sunk (A ++ (insertAfter itemLe x sorted ++ (rest ++ B))) := by
      rw [hinsert]
      simpa using hsunk.stores
    have hcount' : (if result = .eq then count else count + 1)
        = different (insertAfter itemLe x sorted) := by
      rw [different_perm hperm, different_cons, hcount]
      simp only [hsunk.result_eq_iff hne hpairwise]
    have hall : (insertAfter itemLe x sorted ++ rest).Perm (sorted ++ x :: rest) :=
      (hperm.append_right rest).trans List.perm_middle.symm
    have hlength := hperm.length_eq
    rw [List.length_cons] at hlength
    rw [insertFrom?, if_pos (by omega), hsink]
    simp only [Option.bind_eq_bind, Option.bind_some]
    have hi' : i + 1 = (insertAfter itemLe x sorted).length := by omega
    obtain ⟨items', hinserted, hstores'⟩ := ih hstores (by simp [hinsert])
      (insertAfter_stable itemLe_total itemLe_trans x hsorted fun _ _ => trivial)
      (fun y hy => hcarries y (hall.mem_iff.mp hy)) hi' (by omega) hcount'
    rw [different_perm hall] at hinserted
    exact ⟨items', hinserted, hstores'⟩

/-! ## Sorting ranges -/

theorem Stores.congr {ys : List (List UInt8 × α)} (h : Stores items xs)
    (heq : xs.map (·.2) = ys.map (·.2)) : Stores items ys :=
  h.trans heq

theorem View.Shows.labels (hview : view.Shows string) (h : Carries string front xs) :
    view.Labels front.length xs :=
  fun x hx => hview.label?_eq (h x hx)

theorem pivot?_spec {depth l r : Nat} (hlabels : view.Labels depth xs)
    (h : Stores items (A ++ (xs ++ B))) (hne : xs ≠ []) (hl : l = A.length)
    (hr : r = A.length + xs.length) : pivot? view depth l r items = some (pivot xs) := by
  have hpos := List.length_pos_iff.mpr hne
  have hat : ∀ {i k : Nat}, i = A.length + k → k < xs.length →
      (items[i]?).bind (view.label? · depth) = some ((xs[k]?).elim 0 (label ·.1)) := by
    intro i k hi hk
    have hxs : xs = xs.take k ++ xs[k] :: xs.drop (k + 1) := by
      rw [List.getElem_cons_drop, List.take_append_drop]
    have hsplit : A ++ (xs ++ B) = (A ++ xs.take k) ++ xs[k] :: (xs.drop (k + 1) ++ B) := by
      conv_lhs => rw [hxs]
      simp only [List.append_assoc, List.cons_append]
    rw [hsplit] at h
    have hget := h.getElem? (i := i) (by rw [hi, List.length_append, List.length_take]; omega)
    rw [hget, Option.bind_some, List.getElem?_eq_getElem hk]
    exact hlabels _ (List.getElem_mem hk)
  have hx := hat (k := 0) hl hpos
  have hy := hat (i := l + (r - l) / 2) (k := xs.length / 2) (by omega) (by omega)
  have hz := hat (i := r - 1) (k := xs.length - 1) (by omega) (by omega)
  simp only [Option.bind_eq_some_iff] at hx hy hz
  obtain ⟨a, ha, hx⟩ := hx
  obtain ⟨b, hb, hy⟩ := hy
  obtain ⟨c, hc, hz⟩ := hz
  rw [pivot?, ha, hb, hc]
  simp only [Option.bind_eq_bind, Option.bind_some, hx, hy, hz]
  rfl

/-- Strings of different labels are different. -/
theorem different_append {ys : List (List UInt8 × α)}
    (h : ∀ x ∈ xs, ∀ y ∈ ys, label x.1 ≠ label y.1) :
    different (xs ++ ys) = different xs + different ys := by
  have hdisjoint : Disjoint (xs.map (·.1)).toFinset (ys.map (·.1)).toFinset := by
    rw [Finset.disjoint_left]
    intro rest hrest hrest'
    obtain ⟨x, hx, hxrest⟩ := List.mem_map.mp (List.mem_toFinset.mp hrest)
    obtain ⟨y, hy, hyrest⟩ := List.mem_map.mp (List.mem_toFinset.mp hrest')
    exact h x hx y hy (congrArg label (hxrest.trans hyrest.symm))
  rw [different, List.map_append, List.toFinset_append, Finset.card_union_of_disjoint hdisjoint]
  rfl

theorem different_splitAt (p : Nat) (xs : List (List UInt8 × α)) :
    different xs = different (splitAt p xs).below + different (splitAt p xs).same
      + different (splitAt p xs).above := by
  rw [← different_perm (splitAt_perm p xs), different_append ?_, different_append ?_]
  · intro x hx y hy
    rw [label_eq_of_same p xs y hy]
    exact Nat.ne_of_lt (label_lt_of_below p xs x hx)
  · intro x hx y hy
    have habove := label_gt_of_above p xs y hy
    rcases List.mem_append.mp hx with hx | hx
    · exact Nat.ne_of_lt (Nat.lt_trans (label_lt_of_below p xs x hx) habove)
    · rw [label_eq_of_same p xs x hx]
      exact Nat.ne_of_lt habove

/-- Ended strings are all one. -/
theorem different_of_ended (hne : xs ≠ []) (h : ∀ x ∈ xs, x.1 = []) : different xs = 1 := by
  have hrests : xs.map (·.1) = List.replicate xs.length [] := by
    rw [List.eq_replicate_iff]
    refine ⟨List.length_map _, ?_⟩
    intro rest hrest
    obtain ⟨x, hx, rfl⟩ := List.mem_map.mp hrest
    exact h x hx
  rw [different, hrests, List.toFinset_replicate_of_ne_zero (mt List.length_eq_zero_iff.mp hne),
    Finset.card_singleton]

/-- Strings of one first byte differ behind it. -/
theorem different_map_tail {b : UInt8} (h : ∀ x ∈ xs, x.1 = b :: x.1.tail) :
    different (xs.map fun x => (x.1.tail, x.2)) = different xs := by
  have hrests : xs.map (·.1) = (xs.map fun x => x.1.tail).map (b :: ·) := by
    rw [List.map_map]
    exact List.map_congr_left h
  have hset : (xs.map (·.1)).toFinset = ((xs.map fun x => x.1.tail).toFinset).image (b :: ·) := by
    ext rest
    rw [hrests, List.mem_toFinset, List.mem_map, Finset.mem_image]
    simp only [List.mem_toFinset]
  rw [different, different, hset, Finset.card_image_of_injective _ (List.cons_injective (a := b)),
    List.map_map]
  rfl

/-- Ranges with so little left to read are sorted like their lists, and their different strings are
counted. -/
def SortsRanges (view : View α) (string : α → List UInt8) (fuel : Nat) : Prop :=
  ∀ {front : List UInt8} {xs A B : List (List UInt8 × α)} {items : Array α} {l r : Nat},
    bulk xs < fuel → Carries string front xs → Stores items (A ++ (xs ++ B)) → l = A.length →
    r = A.length + xs.length →
    ∃ items', sortRange? view fuel items l r front.length = some (items', different xs)
      ∧ Stores items' (A ++ (sortItems fuel xs ++ B))

/-- The middle part of a range is sorted like that of a list. -/
theorem SortsRanges.same {fuel p l r : Nat} (hsorts : SortsRanges view string fuel)
    (hbulk : bulk xs ≤ fuel) (hcarries : Carries string front xs) (hne : xs ≠ [])
    (hlabel : ∀ x ∈ xs, label x.1 = p) (h : Stores items (A ++ (xs ++ B))) (hl : l = A.length)
    (hr : r = A.length + xs.length) :
    ∃ items', (if p = 0 then some (items, if l < r then 1 else 0)
        else sortRange? view fuel items l r (front.length + 1)) = some (items', different xs)
      ∧ Stores items' (A ++ (sortSame fuel p xs ++ B)) := by
  have hpos := List.length_pos_iff.mpr hne
  by_cases hp : p = 0
  · have hended := different_of_ended hne fun x hx => eq_nil_of_label (hp ▸ hlabel x hx)
    rw [if_pos hp, if_pos (by omega), hended, sortSame, if_pos hp]
    exact ⟨items, rfl, h⟩
  · obtain ⟨b, hb⟩ := exists_cons_of_label hp
    have hcons : ∀ x ∈ xs, x.1 = b :: x.1.tail := fun x hx => hb x.1 (hlabel x hx)
    have hless := bulk_map_tail hcons
    have hstores : Stores items (A ++ ((xs.map fun x => (x.1.tail, x.2)) ++ B)) :=
      h.congr (by simp)
    have hr' : r = A.length + (xs.map fun x => (x.1.tail, x.2)).length := by
      rw [hr, List.length_map]
    have hsorted := hsorts (by omega) (hcarries.map_tail hcons) hstores hl hr'
    rw [different_map_tail hcons, List.length_append, List.length_singleton] at hsorted
    rw [if_neg hp, sortSame, if_neg hp]
    exact hsorted

/-- A range of at most ten elements is sorted by insertion. -/
theorem sortRange?_of_short (hview : view.Shows string) {fuel l r : Nat} (hshort : xs.length ≤ 10)
    (hcarries : Carries string front xs) (h : Stores items (A ++ (xs ++ B))) (hl : l = A.length)
    (hr : r = A.length + xs.length) :
    ∃ items', sortRange? view (fuel + 1) items l r front.length = some (items', different xs)
      ∧ Stores items' (A ++ (insertionSort itemLe xs ++ B)) := by
  have hlength : r - l = xs.length := by omega
  rw [sortRange?, minus?_eq_some (by omega), hlength]
  simp only [Option.bind_eq_bind, Option.bind_some, if_neg (Nat.not_lt.mpr hshort)]
  match xs with
  | [] => exact ⟨items, rfl, h⟩
  | [x] => exact ⟨items, rfl, h⟩
  | x :: y :: rest =>
    have hsome : ¬(x :: y :: rest).length = 0 := by simp
    have hmore : ¬(x :: y :: rest).length = 1 := by simp
    rw [if_neg hsome, if_neg hmore]
    have hstores : Stores items (A ++ ([x] ++ (y :: rest ++ B))) := h
    exact insertFrom?_spec hview (y :: rest) hstores (List.cons_ne_nil x [])
      (List.pairwise_singleton _ x) hcarries hl rfl (by simp; omega) rfl

theorem length_sortItems (fuel : Nat) (xs : List (List UInt8 × α)) :
    (sortItems fuel xs).length = xs.length := by
  have h := (sortItems_perm fuel xs).length_eq
  rwa [List.length_map, List.length_map] at h

theorem length_sortSame (fuel p : Nat) (xs : List (List UInt8 × α)) :
    (sortSame fuel p xs).length = xs.length := by
  have h := (sortSame_perm fuel p xs).length_eq
  rwa [List.length_map, List.length_map] at h

/-- The parts of a split range can be sorted one by one, each in its place, whatever the order of
those around it. -/
structure PartsSort (view : View α) (fuel depth p l pl pr r : Nat)
    (parts : Parts (List UInt8 × α)) (A B : List (List UInt8 × α)) : Prop where
  below : ∀ {items : Array α} {C : List (List UInt8 × α)},
    Stores items (A ++ (parts.below ++ C)) →
    ∃ items', sortRange? view fuel items l pl depth = some (items', different parts.below)
      ∧ Stores items' (A ++ (sortItems fuel parts.below ++ C))
  same : ∀ {items : Array α} {b C : List (List UInt8 × α)}, b.length = parts.below.length →
    Stores items (A ++ (b ++ (parts.same ++ C))) →
    ∃ items', (if p = 0 then some (items, if pl < pr then 1 else 0)
        else sortRange? view fuel items pl pr (depth + 1)) = some (items', different parts.same)
      ∧ Stores items' (A ++ (b ++ (sortSame fuel p parts.same ++ C)))
  above : ∀ {items : Array α} {b s : List (List UInt8 × α)}, b.length = parts.below.length →
    s.length = parts.same.length → Stores items (A ++ (b ++ (s ++ (parts.above ++ B)))) →
    ∃ items', sortRange? view fuel items pr r depth = some (items', different parts.above)
      ∧ Stores items' (A ++ (b ++ (s ++ (sortItems fuel parts.above ++ B))))

theorem SortsRanges.partsSort {fuel l pl pr r : Nat} (hsorts : SortsRanges view string fuel)
    (hne : xs ≠ []) (hbulk : bulk xs < fuel + 1) (hcarries : Carries string front xs)
    (hl : l = A.length) (hpl : pl = A.length + (splitAt (pivot xs) xs).below.length)
    (hpr : pr = pl + (splitAt (pivot xs) xs).same.length) (hr : r = A.length + xs.length) :
    PartsSort view fuel front.length (pivot xs) l pl pr r (splitAt (pivot xs) xs) A B := by
  obtain ⟨hcbelow, hcsame, hcabove⟩ := carries_splitAt (pivot xs) hcarries
  obtain ⟨hpos, hbbelow, hbsame, hbabove⟩ := bulk_splitAt_lt hne
  have hlength := (splitAt_perm (pivot xs) xs).length_eq
  rw [List.length_append, List.length_append] at hlength
  constructor
  case below =>
    intro items C hstores
    exact hsorts (by omega) hcbelow hstores hl hpl
  case same =>
    intro items b C hb hstores
    rw [← List.append_assoc] at hstores
    have hplace : pl = (A ++ b).length := by rw [List.length_append, hb, hpl]
    have hsorted := hsorts.same (by omega) hcsame (List.length_pos_iff.mp hpos)
      (label_eq_of_same (pivot xs) xs) hstores hplace (hplace ▸ hpr)
    simpa only [List.append_assoc] using hsorted
  case above =>
    intro items b s hb hs hstores
    rw [← List.append_assoc, ← List.append_assoc] at hstores
    have hplace : pr = (A ++ b ++ s).length := by
      rw [List.length_append, List.length_append, hb, hs, hpr, hpl]
    have hend : r = (A ++ b ++ s).length + (splitAt (pivot xs) xs).above.length := by omega
    have hsorted := hsorts (by omega) hcabove hstores hplace hend
    simpa only [List.append_assoc] using hsorted

/-- A range that is split is sorted, in whichever order its parts are. -/
theorem SortsRanges.of_long {fuel l r : Nat} (hview : view.Shows string)
    (hsorts : SortsRanges view string fuel) (hlong : ¬xs.length ≤ 10) (hbulk : bulk xs < fuel + 1)
    (hcarries : Carries string front xs) (h : Stores items (A ++ (xs ++ B))) (hl : l = A.length)
    (hr : r = A.length + xs.length) :
    ∃ items', sortRange? view (fuel + 1) items l r front.length = some (items', different xs)
      ∧ Stores items' (A ++ (sortItems (fuel + 1) xs ++ B)) := by
  have hne : xs ≠ [] := by
    rintro rfl
    exact hlong (Nat.zero_le _)
  have hmany : 10 < r - l := by omega
  have hlabels := hview.labels hcarries
  obtain ⟨split, hpartition, hsplit⟩ := partition?_spec (p := pivot xs) h hlabels hl hr
  have hparts : PartsSort view fuel front.length (pivot xs) l _ _ r (splitAt (pivot xs) xs) A B :=
    hsorts.partsSort hne hbulk hcarries hl rfl (Nat.add_assoc _ _ _).symm hr
  have hlength := (splitAt_perm (pivot xs) xs).length_eq
  have hcount := different_splitAt (pivot xs) xs
  have hbelow := length_sortItems fuel (splitAt (pivot xs) xs).below
  have hsame := length_sortSame fuel (pivot xs) (splitAt (pivot xs) xs).same
  rw [sortRange?, minus?_eq_some (by omega)]
  simp only [Option.bind_eq_bind, Option.bind_some, if_pos hmany]
  rw [pivot?_spec hlabels h hne hl hr]
  simp only [Option.bind_some, hpartition]
  rw [sortItems_of_long hlong, List.append_assoc, List.append_assoc, hcount]
  generalize splitAt (pivot xs) xs = parts at *
  rw [List.length_append, List.length_append] at hlength
  generalize hpl : A.length + parts.below.length = pl at *
  generalize hpr : A.length + (parts.below.length + parts.same.length) = pr at *
  rw [minus?_eq_some (show l ≤ pl by omega), minus?_eq_some (show pl ≤ pr by omega),
    minus?_eq_some (show pr ≤ r by omega)]
  simp only [Option.bind_some]
  by_cases houter : pr - pl < pl - l ∨ pr - pl < r - pr
  · obtain ⟨middle, hmiddle, hstores⟩ := hparts.same rfl hsplit
    rw [if_pos houter, hmiddle, Option.bind_some]
    by_cases hsmaller : pl - l < r - pr
    · obtain ⟨lower, hlower, hstores⟩ := hparts.below hstores
      obtain ⟨upper, hupper, hstores⟩ := hparts.above hbelow hsame hstores
      rw [if_pos hsmaller]
      simp only [hlower, hupper, Option.bind_some]
      exact ⟨upper, by congr 2; omega, hstores⟩
    · obtain ⟨upper, hupper, hstores⟩ := hparts.above rfl hsame hstores
      obtain ⟨lower, hlower, hstores⟩ := hparts.below hstores
      rw [if_neg hsmaller]
      simp only [hlower, hupper, Option.bind_some]
      exact ⟨lower, by congr 2; omega, hstores⟩
  · obtain ⟨lower, hlower, hstores⟩ := hparts.below hsplit
    obtain ⟨upper, hupper, hstores⟩ := hparts.above hbelow rfl hstores
    obtain ⟨middle, hmiddle, hstores⟩ := hparts.same hbelow hstores
    rw [if_neg houter]
    simp only [hlower, hupper, Option.bind_some, Nat.sub_pos_iff_lt, hmiddle]
    exact ⟨middle, by congr 2; omega, hstores⟩

theorem sortsRanges (hview : view.Shows string) (fuel : Nat) : SortsRanges view string fuel := by
  induction fuel with
  | zero => exact fun hbulk => absurd hbulk (Nat.not_lt_zero _)
  | succ fuel ih =>
      intro front xs A B items l r hbulk hcarries h hl hr
      by_cases hshort : xs.length ≤ 10
      · have hsort : sortItems (fuel + 1) xs = insertionSort itemLe xs := by
          rw [sortItems, if_pos hshort]
          rfl
        rw [hsort]
        exact sortRange?_of_short hview hshort hcarries h hl hr
      · exact ih.of_long hview hshort hbulk hcarries h hl hr

/-- Sorting an array in place gives the order of its list, and counts the different strings. -/
theorem sort?_spec (hview : view.Shows string) (items : Array α) :
    ∃ sorted, sort? view items = some (sorted, (items.toList.map string).toFinset.card)
      ∧ sorted.toList = sortStrings string items.toList := by
  have hcarries : Carries string [] (items.toList.map fun a => (string a, a)) := by
    intro x hx
    obtain ⟨a, _, rfl⟩ := List.mem_map.mp hx
    rfl
  have hstores : Stores items ([] ++ ((items.toList.map fun a => (string a, a)) ++ [])) := by
    simp [Stores, Function.comp_def]
  have hbulk : bulk (items.toList.map fun a => (string a, a))
      = sumOf (items.toList.map fun a => (string a).length + 1) := by
    rw [bulk, List.map_map]
    rfl
  have hr : items.size
      = ([] : List (List UInt8 × α)).length + (items.toList.map fun a => (string a, a)).length := by
    simp
  obtain ⟨sorted, hsort, hsorted⟩ := sortsRanges hview _
    (Nat.lt_succ_of_le (Nat.le_of_eq hbulk)) hcarries hstores rfl hr
  refine ⟨sorted, ?_, ?_⟩
  · rw [sort?]
    simp only [hview.len]
    simpa [different, List.map_map, Function.comp_def] using hsort
  · simpa [Stores, sortStrings] using hsorted

end Lexicon.Sorting

/-! ## Reading in a direction -/

namespace Lexicon

open Sorting

variable {α : Type}

theorem Reading.shows_view (reading : Reading) (bytes : α → List UInt8) :
    (reading.view bytes).Shows fun a => reading.read (bytes a) where
  len a := (Shape.length_read reading (bytes a)).symm
  byte? a i := by
    cases reading with
    | forward => rfl
    | backward =>
      change (if i < (bytes a).length then (bytes a)[(bytes a).length - 1 - i]? else none)
        = (bytes a).reverse[i]?
      by_cases hi : i < (bytes a).length
      · rw [if_pos hi, List.getElem?_reverse hi]
      · rw [if_neg hi, List.getElem?_eq_none (by rwa [List.length_reverse, ← Nat.not_lt])]

/-- Sorting in place always comes to an end, within the splits that it may nest and without a read
behind the end of a string. It leaves the elements in the order of the bytes of their strings as
they are read, as `sortStrings` puts them, and counts the different strings. -/
theorem Reading.sort?_exact (reading : Reading) (bytes : α → List UInt8) (items : Array α) :
    ∃ sorted count, sort? (reading.view bytes) items = some (sorted, count)
      ∧ sorted.toList.Perm items.toList
      ∧ sorted.toList.Pairwise (fun a b => reading.read (bytes a) ≤ reading.read (bytes b))
      ∧ count = (items.toList.map bytes).toFinset.card
      ∧ sorted.toList = sortStrings (fun a => reading.read (bytes a)) items.toList
      ∧ count = distinct (sorted.toList.map fun a => reading.read (bytes a)) := by
  obtain ⟨sorted, hsort, hsorted⟩ := sort?_spec (reading.shows_view bytes) items
  have hperm : sorted.toList.Perm items.toList := hsorted ▸ sortStrings_perm _ _
  have horder : sorted.toList.Pairwise fun a b =>
      bytesLe (reading.read (bytes a)) (reading.read (bytes b)) = true :=
    hsorted ▸ sortStrings_sorted _ _
  refine ⟨sorted, _, hsort, hperm, horder.imp bytesLe_iff_le.mp, ?_, hsorted, ?_⟩
  · have hset : (items.toList.map fun a => reading.read (bytes a)).toFinset
        = ((items.toList.map bytes).toFinset).image reading.read := by
      ext string
      simp only [List.mem_toFinset, List.mem_map, Finset.mem_image, exists_exists_and_eq_and]
    rw [hset, Finset.card_image_of_injective _ (Shape.read_injective reading)]
  · rw [distinct_eq_card (List.pairwise_map.mpr horder),
      List.toFinset_eq_of_perm _ _ (hperm.map _)]

/-- Back to front the string that is a single byte stands before those that go on from it. -/
example : sort? (Reading.backward.view id) #[[98, 97], [], [97], [98, 97]]
    = some (#[[], [97], [98, 97], [98, 97]], 3) := by
  cbv

/-- The strings of a level can be sorted in place, and their different ones counted by that. -/
theorem Shape.sort?_pendingOf (order : SiblingOrder) (reading : Reading)
    (strings : List (List UInt8 × Weight)) :
    ∃ sorted, sort? (Reading.forward.view (·.rest)) (pendingOf reading strings).toArray
        = some (sorted, (ofStrings order reading strings).distinct)
      ∧ sorted.toList = sortedOf reading strings := by
  obtain ⟨sorted, hsort, hsorted⟩ :=
    sort?_spec (Reading.forward.shows_view (·.rest)) (pendingOf reading strings).toArray
  refine ⟨sorted, ?_, hsorted⟩
  have hcount : (ofStrings order reading strings).distinct
      = ((pendingOf reading strings).map (·.rest)).toFinset.card :=
    (distinct_eq_card (List.pairwise_map.mpr (sortStrings_sorted _ _))).trans
      (congrArg _ (List.toFinset_eq_of_perm _ _ ((sortStrings_perm _ _).map _)))
  rw [hcount]
  exact hsort

end Lexicon
