/-
Lexicon.Proofs.Search.Zeros — siblings whose keys weigh nothing.

The weights of a first run are added to the first of them, those of a later run to a zero
without a sign, and a sum of zeros has a sign only if all its terms have one. So the only
edge that can weigh minus zero is the first one in label order, and the order of weights
puts minus zero below zero: such an edge stands behind its siblings (`edges_by_zero`).
In terms of the keys, that byte is the least that goes on behind the front of the node, and
all keys behind it weigh minus zero (`SinksBehind`). Keys of no weight for which this
happens nowhere are `Steady`; they, and no others, are found in label order when siblings
are sorted by weight (`Dictionary.zero_weights_keep_label_order`).
-/
import Lexicon.Proofs.Search.Order
import Lexicon.Proofs.Search.Settings

namespace Lexicon

/-! ## Sums of zeros -/

namespace Weight

/-- A weight is zero, with a sign or without. -/
def IsZero (w : Weight) : Prop :=
  w.magnitude = 0

instance (w : Weight) : Decidable w.IsZero :=
  inferInstanceAs (Decidable (_ = _))

/-- The zero of a sign. -/
def zeroOf (negative : Bool) : Weight :=
  ⟨if negative then 0x80000000 else 0⟩

theorem IsZero.total_eq {w : Weight} (h : w.IsZero) : w.total = .finite w.negative 0 := by
  have hnan : w.isNaN = false := by
    rw [isNaN, show w.magnitude = 0 from h]
    rfl
  have hfinite : ¬w.magnitude = 0x7F800000 := by
    rw [show w.magnitude = 0 from h]
    decide
  rw [Weight.total, hnan, if_neg Bool.false_ne_true, if_neg hfinite, show w.magnitude = 0 from h]
  rfl

theorem weight_zero (negative : Bool) :
    (Total.finite negative 0).weight = zeroOf negative := by
  cases negative <;> rfl

theorem key_zeroOf (negative : Bool) : (zeroOf negative).key = if negative then -1 else 0 := by
  cases negative <;> rfl

end Weight

namespace Total

/-- A sum of zeros is a zero, with a sign if all of them have one. -/
theorem sum_zeros : ∀ {weights : List Weight} {sign : Bool}, (∀ w ∈ weights, w.IsZero) →
    sum (finite sign 0) weights = finite (sign && weights.all (·.negative)) 0
  | [], sign, _ => by rw [List.all_nil, Bool.and_true]; rfl
  | w :: weights, sign, hall => by
      have hadd : (finite sign 0).add w.total = finite (sign && w.negative) 0 := by
        rw [(hall w List.mem_cons_self).total_eq]
        cases sign <;> cases w.negative <;> rfl
      have hrest : sum (finite (sign && w.negative) 0) weights = _ :=
        sum_zeros fun x hx => hall x (List.mem_cons_of_mem w hx)
      rw [List.all_cons, ← Bool.and_assoc, ← hrest, ← hadd]
      rfl

end Total

/-- A first run of zeros weighs minus zero if all of them do. -/
theorem firstRunWeight_zeros {weights : List Weight} (hne : weights ≠ [])
    (hall : ∀ w ∈ weights, w.IsZero) :
    firstRunWeight weights = .zeroOf (weights.all (·.negative)) := by
  cases weights with
  | nil => exact absurd rfl hne
  | cons w weights =>
    rw [firstRunWeight, (hall w List.mem_cons_self).total_eq,
      Total.sum_zeros fun x hx => hall x (List.mem_cons_of_mem w hx), Weight.weight_zero,
      List.all_cons]

/-- A later run of zeros weighs zero without a sign, even if all of them have one. -/
theorem laterRunWeight_zeros {weights : List Weight} (hall : ∀ w ∈ weights, w.IsZero) :
    laterRunWeight weights = .zeroOf false := by
  have hsum : Total.sum (.finite false 0) weights = _ := Total.sum_zeros hall
  rw [Bool.false_and] at hsum
  rw [laterRunWeight, show Total.zero = .finite false 0 from rfl, hsum, Weight.weight_zero]

/-! ## The edges of a node -/

/-- All strings below an edge weigh minus zero, and no string of the node goes on with a lesser
byte. -/
def Sinks (ps : List Pending) (e : Edge) : Prop :=
  (∀ p ∈ e.below, p.weight.negative = true)
    ∧ ∀ p ∈ ps, p.rest ≠ [] → Sorting.label e.label ≤ Sorting.label p.rest

variable {order : SiblingOrder} {ps : List Pending} {e : Edge}

/-- The strings below the edge of a run weigh what those of the run do. -/
theorem forall_runBelow (run : List Pending) (property : Weight → Prop) :
    (∀ p ∈ runBelow run, property p.weight) ↔ ∀ p ∈ run, property p.weight := by
  rw [runBelow, List.forall_mem_map]

/-- A string that goes on starts like the label of some run. -/
theorem exists_run_of_pending {p : Pending} (hp : p ∈ ps) (hne : p.rest ≠ []) :
    ∃ run ∈ runsOf ps, p ∈ run := by
  have hlive : p ∈ (runsOf ps).flatten := by
    rw [flatten_runsOf, List.mem_filter]
    simpa using ⟨hp, hne⟩
  exact List.mem_flatten.mp hlive

/-- An edge of zeros weighs zero, and minus zero if it sinks. -/
theorem weight_of_zeros (h : Ordered ps) (hzero : ∀ p ∈ ps, p.weight.IsZero)
    (he : e ∈ (Node.ofPending order ps).edges) :
    ∃ sunk, e.weight = .zeroOf sunk ∧ (sunk = true ↔ Sinks ps e) := by
  have hzeros : ∀ run ∈ runsOf ps, ∀ w ∈ run.map (·.weight), w.IsZero := by
    intro run hrun
    rw [List.forall_mem_map]
    exact fun p hp => hzero p ((run_sublist hrun).mem hp)
  have hmem : e ∈ Edge.ofRuns (runsOf ps) := (order.arrange_perm _).mem_iff.mp he
  have hlabels := branches_by_label h
  rw [branches] at hlabels
  cases hruns : runsOf ps with
  | nil =>
    rw [hruns] at hmem
    cases hmem
  | cons first later =>
    have hfirst : first ∈ runsOf ps := hruns ▸ List.mem_cons_self
    rw [hruns] at hmem
    rw [hruns, List.map_cons, List.pairwise_cons] at hlabels
    rcases List.mem_cons.mp hmem with rfl | hmem
    · refine ⟨(first.map (·.weight)).all (·.negative), ?_, ?_⟩
      · exact firstRunWeight_zeros (mt List.map_eq_nil_iff.mp (run_ne_nil hfirst))
          (hzeros first hfirst)
      · have hleast : ∀ p ∈ ps, p.rest ≠ [] →
            Sorting.label (runLabel first) ≤ Sorting.label p.rest := by
          intro p hp hne
          obtain ⟨run, hrun, hprun⟩ := exists_run_of_pending hp hne
          rw [← label_eq_iff.mpr (head?_runLabel hrun hprun)]
          rw [hruns] at hrun
          rcases List.mem_cons.mp hrun with rfl | hrun
          · exact Nat.le_refl _
          · exact Nat.le_of_lt (hlabels.1 _ (List.mem_map_of_mem hrun))
        have hbelow := forall_runBelow first (·.negative = true)
        rw [List.all_map, List.all_eq_true]
        exact ⟨fun hall => ⟨hbelow.mpr hall, hleast⟩, fun hsinks => hbelow.mp hsinks.1⟩
    · obtain ⟨run, hrun, rfl⟩ := List.mem_map.mp hmem
      refine ⟨false, ?_, ?_⟩
      · exact laterRunWeight_zeros (hzeros run (hruns ▸ List.mem_cons_of_mem first hrun))
      · refine iff_of_false Bool.false_ne_true ?_
        rintro ⟨_, hleast⟩
        obtain ⟨p, hp⟩ := List.exists_mem_of_ne_nil first (run_ne_nil hfirst)
        obtain ⟨hpps, hne⟩ := mem_filter_of_mem_run hfirst hp
        have hlt := hlabels.1 _ (List.mem_map_of_mem hrun)
        rw [label_eq_iff.mpr (head?_runLabel hfirst hp)] at hlt
        exact Nat.not_le_of_lt hlt (hleast p hpps hne)

/-- Sorted by weight, the edges of zeros stand in label order but for one that sinks, which comes
last. -/
theorem edges_by_zero (h : Ordered ps) (hzero : ∀ p ∈ ps, p.weight.IsZero) :
    (Node.ofPending .weight ps).edges.Pairwise fun e e' => ¬Sinks ps e
      ∧ (Sinks ps e' ∨ Sorting.label e.label < Sorting.label e'.label) := by
  refine (edges_stable h).imp_of_mem ?_
  rintro e e' he he' ⟨hle, hcame⟩
  obtain ⟨sunk, hweight, hsunk⟩ := weight_of_zeros h hzero he
  obtain ⟨sunk', hweight', hsunk'⟩ := weight_of_zeros h hzero he'
  have hkeys := of_decide_eq_true hle
  simp only [hweight, hweight', Weight.key_zeroOf] at hkeys hcame
  rw [← hsunk, ← hsunk']
  cases sunk with
  | false =>
    cases sunk' with
    | false => exact ⟨Bool.false_ne_true, Or.inr (hcame (by decide))⟩
    | true => exact ⟨Bool.false_ne_true, Or.inl rfl⟩
  | true =>
    cases sunk' with
    | false => exact absurd hkeys (by decide)
    | true =>
      -- both would have the least byte, but the second has a greater one
      have hlt := hcame (by decide)
      obtain ⟨p, hp⟩ := List.exists_mem_of_ne_nil _ (below_ne_nil_of_edge he)
      obtain ⟨q, hq, hrest, _⟩ := exists_pending_of_edge he hp
      have hlabel : Sorting.label q.rest = Sorting.label e.label := by
        rw [label_eq_iff, hrest, List.head?_append_of_ne_nil _ (label_ne_nil_of_edge he)]
      have hne : q.rest ≠ [] := by
        rw [hrest]
        exact List.append_ne_nil_of_left_ne_nil (label_ne_nil_of_edge he) _
      have hleast := (hsunk'.mp rfl).2 q hq hne
      rw [hlabel] at hleast
      exact absurd hlt (Nat.not_lt.mpr hleast)

/-! ## In terms of the strings -/

/-- Behind some bytes no string goes on with a lesser byte, and all that go on with this one weigh
minus zero. -/
def SinksBehind (strings : List (List UInt8 × Weight)) (front : List UInt8) (a : UInt8) : Prop :=
  (∀ x ∈ strings, front ++ [a] <+: x.1 → x.2.negative = true)
    ∧ ∀ x ∈ strings, ∀ b, front ++ [b] <+: x.1 → a ≤ b

/-- Behind some bytes the first byte stands before the second: in label order, but a byte that sinks
comes last. -/
def Floats (strings : List (List UInt8 × Weight)) (front : List UInt8) (a b : UInt8) : Prop :=
  ¬SinksBehind strings front a ∧ (SinksBehind strings front b ∨ a < b)

/-- Wherever strings go on with a lesser and a greater byte, the lesser does not sink. -/
def Steady (strings : List (List UInt8 × Weight)) : Prop :=
  ∀ (front : List UInt8) (a b : UInt8), a < b → (∃ x ∈ strings, front ++ [a] <+: x.1) →
    (∃ x ∈ strings, front ++ [b] <+: x.1) → ¬SinksBehind strings front a

theorem Floats.asymm {strings : List (List UInt8 × Weight)} (front : List UInt8) (a b : UInt8)
    (h : Floats strings front a b) : ¬Floats strings front b a := by
  rintro ⟨hb, ha⟩
  exact UInt8.lt_asymm (h.2.resolve_left hb) (ha.resolve_left h.1)

namespace Shape

variable {strings : List (List UInt8 × Weight)} {w : List UInt8} {a b : UInt8}

theorem Reaching.isZero (h : Reaching strings w ps) (hzero : ∀ x ∈ strings, x.2.IsZero) :
    ∀ p ∈ ps, p.weight.IsZero := by
  intro p hp
  exact hzero _ (List.mem_of_mem_filter (h.mem_iff.mp (List.mem_map_of_mem hp)))

/-- A string that goes on from the word of a node is one of those that reach it. -/
theorem Reaching.exists_pending (h : Reaching strings w ps) {x : List UInt8 × Weight}
    (hx : x ∈ strings) (hfront : w <+: x.1) : ∃ p ∈ ps, x.1 = w ++ p.rest := by
  have hmem : x ∈ strings.filter fun x => w.isPrefixOf x.1 :=
    List.mem_filter.mpr ⟨hx, List.isPrefixOf_iff_prefix.mpr hfront⟩
  obtain ⟨p, hp, rfl⟩ := List.mem_map.mp (h.mem_iff.mpr hmem)
  exact ⟨p, hp, rfl⟩

/-- Strings take the edge of a byte, and all of them start with the word of its node. -/
theorem Reaching.exists_string (h : Reaching strings w ps)
    (he : e ∈ (Node.ofPending order ps).edges) (ha : e.label.head? = some a) :
    ∃ x ∈ strings, w ++ [a] <+: x.1 := by
  obtain ⟨p, hp⟩ := List.exists_mem_of_ne_nil _ (below_ne_nil_of_edge he)
  obtain ⟨q, hq, hrest, _⟩ := exists_pending_of_edge he hp
  obtain ⟨more, hmore⟩ := List.head?_eq_some_iff.mp ha
  refine ⟨_, List.mem_of_mem_filter (h.mem_iff.mp (List.mem_map_of_mem hq)), more ++ p.rest, ?_⟩
  simp [hrest, hmore]

/-- An edge sinks if its byte does behind the word of its node. -/
theorem Reaching.sinks_iff (h : Reaching strings w ps) (hordered : Ordered ps)
    (he : e ∈ (Node.ofPending order ps).edges) (ha : e.label.head? = some a) :
    Sinks ps e ↔ SinksBehind strings w a := by
  obtain ⟨run, hrun, hlabel, hbelow⟩ := exists_run_of_edge he
  have hfront : [a] <+: runLabel run := by
    obtain ⟨more, hmore⟩ := List.head?_eq_some_iff.mp (hlabel ▸ ha)
    rw [hmore]
    exact ⟨more, rfl⟩
  have hperm := h.run hordered hrun (List.cons_ne_nil a []) hfront
  have hlabels : ∀ {s : List UInt8} {b : UInt8}, s.head? = some b →
      (Sorting.label e.label ≤ Sorting.label s ↔ a ≤ b) := by
    intro s b hb
    rw [← Nat.not_lt, label_lt_iff hb ha, UInt8.not_lt]
  rw [Sinks, SinksBehind, hbelow, forall_runBelow run (·.negative = true)]
  refine and_congr ⟨?_, ?_⟩ ⟨?_, ?_⟩
  · intro hall x hx hxa
    have hmem := hperm.mem_iff.mpr (List.mem_filter.mpr ⟨hx, List.isPrefixOf_iff_prefix.mpr hxa⟩)
    obtain ⟨p, hp, rfl⟩ := List.mem_map.mp hmem
    exact hall p hp
  · intro hall p hp
    obtain ⟨hx, hxa⟩ := List.mem_filter.mp (hperm.mem_iff.mp (List.mem_map_of_mem hp))
    exact hall _ hx (List.isPrefixOf_iff_prefix.mp hxa)
  · intro hall x hx b hxb
    obtain ⟨p, hp, hrest⟩ := h.exists_pending hx ((List.prefix_append w [b]).trans hxb)
    rw [hrest, List.prefix_append_right_inj] at hxb
    obtain ⟨more, hmore⟩ := hxb
    have hhead : p.rest.head? = some b := by rw [← hmore]; rfl
    have hne : p.rest ≠ [] := by rw [← hmore]; exact List.cons_ne_nil b more
    exact (hlabels hhead).mp (hall p hp hne)
  · intro hall p hp hne
    obtain ⟨b, more, hmore⟩ := List.exists_cons_of_ne_nil hne
    have hhead : p.rest.head? = some b := by rw [hmore]; rfl
    have hx := List.mem_of_mem_filter (h.mem_iff.mp (List.mem_map_of_mem hp))
    refine (hlabels hhead).mpr (hall _ hx b ?_)
    rw [hmore]
    exact ⟨more, by simp⟩

/-- Sorted by weights that are zeros, siblings stand by their first bytes, but for one that
sinks. -/
theorem ranked_by_zero (hzero : ∀ x ∈ strings, x.2.IsZero) :
    (ofStrings .weight .forward strings).Ranked (Floats strings) := by
  intro u v v' w e e' a b hu he he' hvv' ha hb
  obtain ⟨ps, hordered, hnode, hreaching⟩ := exists_reaching hu
  obtain ⟨j, hj, _⟩ := he.exists_edge hnode
  obtain ⟨j', hj', _⟩ := he'.exists_edge hnode
  have hedges := edges_by_zero hordered (hreaching.isZero hzero)
  have hbefore := before_of_enters hnode hedges he he' hvv'
  rwa [hreaching.sinks_iff hordered (List.mem_of_getElem? hj) ha,
    hreaching.sinks_iff hordered (List.mem_of_getElem? hj') hb, label_lt_iff ha hb] at hbefore

/-- If the strings are steady, sorting the edges of a node by weight leaves them in label order. -/
theorem Reaching.node_eq (h : Reaching strings w ps) (hordered : Ordered ps)
    (hzero : ∀ x ∈ strings, x.2.IsZero) (hsteady : Steady strings) :
    Node.ofPending .weight ps = Node.ofPending .label ps := by
  have hbyLabel : (Node.ofPending .weight ps).edges.Pairwise
      fun e e' => Sorting.label e.label < Sorting.label e'.label := by
    refine ((edges_by_zero hordered (h.isZero hzero)).and (edges_apart .weight hordered)).imp_of_mem
      ?_
    rintro e e' he he' ⟨⟨_, hsinks | hlt⟩, hapart⟩
    · obtain ⟨a, _, ha⟩ := List.exists_cons_of_ne_nil (label_ne_nil_of_edge he)
      obtain ⟨b, _, hb⟩ := List.exists_cons_of_ne_nil (label_ne_nil_of_edge he')
      replace ha : e.label.head? = some a := by rw [ha]; rfl
      replace hb : e'.label.head? = some b := by rw [hb]; rfl
      rw [h.sinks_iff hordered he' hb] at hsinks
      obtain ⟨x, hx, hxa⟩ := h.exists_string he ha
      have hle := hsinks.2 x hx a hxa
      have hne : b ≠ a := by
        rintro rfl
        exact hapart (ha.trans hb.symm)
      exact absurd hsinks (hsteady w b a (UInt8.lt_of_le_of_ne hle hne) (h.exists_string he' hb)
        ⟨x, hx, hxa⟩)
    · exact hlt
  have hperm : (Node.ofPending .weight ps).edges.Perm (Node.ofPending .label ps).edges :=
    SiblingOrder.weight.arrange_perm _
  have hedges := hperm.eq_of_pairwise (fun e e' _ _ hlt hgt => absurd hlt (Nat.lt_asymm hgt))
    hbyLabel (ofRuns_by_label hordered)
  exact congrArg (Node.mk _) hedges

/-- Layer by layer, the nodes of steady strings are those of label order. -/
theorem breadthFirst_steady (hzero : ∀ x ∈ strings, x.2.IsZero) (hsteady : Steady strings)
    (fuel : Nat) {layer : List (List Pending)}
    (h : ∀ ps ∈ layer, Ordered ps ∧ ∃ w, Reaching strings w ps) :
    breadthFirst .weight fuel layer = breadthFirst .label fuel layer := by
  induction fuel generalizing layer with
  | zero => rfl
  | succ fuel ih =>
    have hnodes : layer.map (Node.ofPending .weight) = layer.map (Node.ofPending .label) := by
      apply List.map_congr_left
      intro ps hps
      obtain ⟨hordered, w, hreaching⟩ := h ps hps
      exact hreaching.node_eq hordered hzero hsteady
    have hnext : ∀ below ∈ pendings (layer.map (Node.ofPending .label)),
        Ordered below ∧ ∃ w, Reaching strings w below := by
      intro below hbelow
      obtain ⟨node, hnode, hmem⟩ := List.mem_flatMap.mp hbelow
      obtain ⟨ps, hps, rfl⟩ := List.mem_map.mp hnode
      obtain ⟨e, he, rfl⟩ := List.mem_map.mp hmem
      obtain ⟨hordered, w, hreaching⟩ := h ps hps
      exact ⟨ordered_below hordered he, _, hreaching.below hordered he⟩
    rw [breadthFirst_succ, breadthFirst_succ, hnodes, ih hnext]

/-- Steady strings have one tree in both orders. -/
theorem ofStrings_steady (hzero : ∀ x ∈ strings, x.2.IsZero) (hsteady : Steady strings) :
    ofStrings .weight .forward strings = ofStrings .label .forward strings := by
  have hroot : ∀ ps ∈ [sortedOf .forward strings], Ordered ps ∧ ∃ w, Reaching strings w ps := by
    intro ps hps
    obtain rfl := List.mem_singleton.mp hps
    exact ⟨ordered_sortedOf .forward strings, [], reaching_root strings⟩
  have hnodes := breadthFirst_steady hzero hsteady
    ((sortedOf .forward strings).foldl (fun m p => max m p.rest.length) 0 + 1) hroot
  exact congrArg (Shape.mk · _ _) hnodes

end Shape

/-! ## Dictionaries of keys without weight -/

/-- A search delivers one list only. -/
theorem Delivers.unique {search : Agent → Agent × Except Fault Bool} :
    ∀ {a : Agent} {hits hits' : List (List UInt8 × Nat)}, Delivers search a hits →
      Delivers search a hits' → hits = hits'
  | _, [], [], _, _ => rfl
  | a, [], hit :: hits, hnone, ⟨a', hsearch, _⟩ => by
      have hno := hnone 0
      rw [Function.iterate_zero, id_eq, hsearch] at hno
      cases hno
  | a, hit :: hits, [], ⟨a', hsearch, _⟩, hnone => by
      have hno := hnone 0
      rw [Function.iterate_zero, id_eq, hsearch] at hno
      cases hno
  | a, hit :: hits, hit' :: hits', ⟨a', hsearch, hkey, hid, hrest⟩,
      ⟨a'', hsearch', hkey', hid', hrest'⟩ => by
      rw [hsearch] at hsearch'
      obtain ⟨rfl, _⟩ := Prod.mk.inj hsearch'
      rw [hrest.unique hrest', Prod.ext (hkey.symm.trans hkey') (hid.symm.trans hid')]

/-- Searches in cascades that tell one tree in label order deliver one list. -/
theorem Cascade.delivers_of_tells {c c' : Cascade} {strings : List (List UInt8 × Weight)}
    (h : c.Tells (.ofStrings .label .forward strings))
    (h' : c'.Tells (.ofStrings .label .forward strings)) (a : Agent) (query : List UInt8) :
    ∃ hits, Delivers (Dictionary.extensionSearch ⟨some c⟩) (a.setQuery query) hits
      ∧ Delivers (Dictionary.extensionSearch ⟨some c'⟩) (a.setQuery query) hits := by
  obtain ⟨hits, hnodup, hmem, hdelivers, horder⟩ :=
    exists_hits_in_order h (a.searchState_setQuery query)
  obtain ⟨hits', hnodup', hmem', hdelivers', horder'⟩ :=
    exists_hits_in_order h' (a.searchState_setQuery query)
  have hperm : hits.Perm hits' := by
    rw [List.perm_ext_iff_of_nodup (List.Nodup.of_map _ hnodup) (List.Nodup.of_map _ hnodup')]
    rintro ⟨word, id⟩
    rw [hmem, hmem']
  have hsorted : ∀ {hits : List (List UInt8 × Nat)},
      (hits.map Prod.fst).Pairwise (Precedes fun _ a b => a < b) →
      hits.Pairwise fun hit hit' => hit.1 < hit'.1 :=
    fun h => List.pairwise_map.mp (h.imp Precedes.lt)
  have heq := hperm.eq_of_pairwise (fun _ _ _ _ hlt hgt => absurd hgt (List.lt_asymm hlt))
    (hsorted (horder _ Shape.ranked_by_label)) (hsorted (horder' _ Shape.ranked_by_label))
  exact ⟨hits, hdelivers, heq ▸ hdelivers'⟩

/-- Where the least byte sinks, no list of keys stands both by zeros and in label order. -/
theorem steady_of_orders {strings : List (List UInt8 × Weight)} {words : List (List UInt8)}
    (hmem : ∀ x ∈ strings, x.1 ∈ words) (hzero : words.Pairwise (Precedes (Floats strings)))
    (hlabel : words.Pairwise (Precedes fun _ a b => a < b)) : Steady strings := by
  rintro front a b hab ⟨x, hx, hxa⟩ ⟨y, hy, hyb⟩ hsinks
  obtain ⟨xs, hxs⟩ := hxa
  obtain ⟨ys, hys⟩ := hyb
  rw [List.append_assoc] at hxs hys
  have hfloats : Floats strings front b a :=
    ⟨fun hb => UInt8.not_le.mpr hab (hb.2 x hx a ⟨xs, by rw [List.append_assoc, hxs]⟩),
      Or.inl hsinks⟩
  have hne := UInt8.ne_of_lt hab
  have hyx : Precedes (Floats strings) y.1 x.1 :=
    Or.inr ⟨front, b, a, ys, xs, hys.symm, hxs.symm, hne.symm, hfloats⟩
  have hxy : Precedes (fun _ a b => a < b) x.1 y.1 :=
    Or.inr ⟨front, a, b, xs, ys, hxs.symm, hys.symm, hne, hab⟩
  have hlt := hxy.lt
  have hsublist := (pair_sublist_iff (fun _ _ h => h.asymm Floats.asymm) hzero (hmem y hy)
    (hmem x hx) fun heq => List.lt_irrefl x.1 (heq ▸ hlt)).mpr hyx
  exact List.lt_asymm hlt ((List.pairwise_cons.mp (hlabel.sublist hsublist)).1 _ (by simp)).lt

namespace Dictionary

/-- If all keys weigh zero, each with a sign or without, dictionaries with siblings by weight and
with siblings in label order have the same ids and enumerate the keys of every query alike exactly
if nowhere the least byte that goes on behind some front has only keys of weight minus zero and a
sibling. -/
theorem zero_weights_keep_label_order {ks : Keyset} {config config' : Config}
    (hlimits : ks.WithinLimits) (hvalid : config.Valid) (hvalid' : config'.Valid)
    (horder : config.order = .weight) (horder' : config'.order = .label)
    (hzero : ∀ entry ∈ ks.entries.toList, entry.weight.IsZero) :
    ∃ d d' built built', Dictionary.build ks config = .ok (d, built)
      ∧ Dictionary.build ks config' = .ok (d', built')
      ∧ ks.SameKeys built ∧ ks.SameKeys built'
      ∧ ((built = built' ∧ ∀ (a : Agent) (query : List UInt8), ∃ hits,
          Delivers d.extensionSearch (a.setQuery query) hits
          ∧ Delivers d'.extensionSearch (a.setQuery query) hits) ↔ Steady ks.strings) := by
  have hzeros : ∀ x ∈ ks.strings, x.2.IsZero := by
    intro x hx
    obtain ⟨entry, hentry, rfl⟩ := List.mem_map.mp hx
    exact hzero entry hentry
  obtain ⟨d, built, hbuild, hsame, hall⟩ := exists_hits_ranked hlimits hvalid
  obtain ⟨d', built', hbuild', hsame', hall'⟩ := exists_hits_ranked hlimits hvalid'
  refine ⟨d, d', built, built', hbuild, hbuild', hsame, hsame', ?_, ?_⟩
  · rintro ⟨_, hsearches⟩
    obtain ⟨hits, hdelivers, hdelivers'⟩ := hsearches {} []
    obtain ⟨byZero, _, hmem, hdeliversZero, hranked⟩ := hall {} []
    obtain ⟨byLabel, _, _, hdeliversLabel, hranked'⟩ := hall' {} []
    obtain rfl := hdelivers.unique hdeliversZero
    obtain rfl := hdelivers'.unique hdeliversLabel
    refine steady_of_orders ?_ (hranked _ ?_) (hranked' _ ?_)
    · intro x hx
      obtain ⟨entry, hentry, rfl⟩ := List.mem_map.mp hx
      exact (hmem _).mpr ⟨List.mem_map_of_mem hentry, List.nil_prefix⟩
    · rw [horder]
      exact Shape.ranked_by_zero hzeros
    · rw [horder']
      exact Shape.ranked_by_label
  · intro hsteady
    obtain ⟨c, hc, htells⟩ := build_tree hlimits hvalid
    obtain ⟨c', hc', htells'⟩ := build_tree hlimits hvalid'
    rw [horder, Shape.ofStrings_steady hzeros hsteady] at hc htells
    rw [horder'] at hc' htells'
    rw [hbuild] at hc
    rw [hbuild'] at hc'
    obtain ⟨rfl, rfl⟩ := Prod.mk.inj (Except.ok.inj hc)
    obtain ⟨rfl, rfl⟩ := Prod.mk.inj (Except.ok.inj hc')
    exact ⟨rfl, Cascade.delivers_of_tells htells htells'⟩

/-- One of the two entries of the lesser byte has no sign, so its zero keeps its place although the
other entry and the sibling have one. -/
theorem zero_weights_keep_label_order_mixed : ∃ d d' built,
    Dictionary.build ⟨#[{ bytes := [98], weight := ⟨0x80000000⟩ },
      { bytes := [97], weight := ⟨0x80000000⟩ }, { bytes := [97], weight := ⟨0⟩ }]⟩ {}
        = .ok (d, built)
      ∧ Dictionary.build ⟨#[{ bytes := [98], weight := ⟨0x80000000⟩ },
        { bytes := [97], weight := ⟨0x80000000⟩ }, { bytes := [97], weight := ⟨0⟩ }]⟩ .sorted
        = .ok (d', built)
      ∧ ∀ query : List UInt8, ∃ hits, Delivers d.extensionSearch (({} : Agent).setQuery query) hits
        ∧ Delivers d'.extensionSearch (({} : Agent).setQuery query) hits := by
  have hlimits : (⟨#[{ bytes := [98], weight := ⟨0x80000000⟩ },
      { bytes := [97], weight := ⟨0x80000000⟩ }, { bytes := [97], weight := ⟨0⟩ }]⟩
        : Keyset).WithinLimits := by decide
  obtain ⟨d, d', built, built', hbuild, hbuild', _, _, hsame⟩ := zero_weights_keep_label_order
    hlimits (show ({} : Config).Valid by decide) (show Config.sorted.Valid by decide) rfl rfl
    (by decide)
  have hsteady : Steady (Keyset.strings ⟨#[{ bytes := [98], weight := ⟨0x80000000⟩ },
      { bytes := [97], weight := ⟨0x80000000⟩ }, { bytes := [97], weight := ⟨0⟩ }]⟩) := by
    rintro front a b hab ⟨x, hx, hxa⟩ ⟨y, hy, hyb⟩ ⟨hsigned, _⟩
    have hword : ∀ {z : List UInt8 × Weight} {c : UInt8}, z ∈ Keyset.strings
        ⟨#[{ bytes := [98], weight := ⟨0x80000000⟩ }, { bytes := [97], weight := ⟨0x80000000⟩ },
          { bytes := [97], weight := ⟨0⟩ }]⟩ → front ++ [c] <+: z.1 →
        front = [] ∧ (c = 97 ∨ c = 98) := by
      intro z c hz hzc
      have hbytes : z.1 = [98] ∨ z.1 = [97] := by
        simp only [Keyset.strings, List.map_cons, List.map_nil, List.mem_cons,
          List.not_mem_nil, or_false] at hz
        rcases hz with rfl | rfl | rfl <;> simp
      cases front with
      | nil => rcases hbytes with h | h <;> simp_all
      | cons n front => rcases hbytes with h | h <;> simp_all
    obtain ⟨rfl, rfl | rfl⟩ := hword hx hxa
    · exact absurd (hsigned ([97], ⟨0⟩) (by decide) (by decide)) (by decide)
    · obtain ⟨_, rfl | rfl⟩ := hword hy hyb <;> exact absurd hab (by decide)
  obtain ⟨rfl, hsearches⟩ := hsame.mpr hsteady
  exact ⟨d, d', built, hbuild, hbuild', hsearches {}⟩

/-- Two keys of weight minus zero: by weight the first of them is enumerated last and has the
greater id, although both weigh as much and the first has the lesser byte. -/
theorem zero_weights_leave_label_order :
    ((Dictionary.build ⟨#[{ bytes := [97], weight := ⟨0x80000000⟩ },
        { bytes := [98], weight := ⟨0x80000000⟩ }]⟩ {}).toOption.map fun (d, built) =>
          (built.entries.toList.map (·.id), (d.extensionSearch {}).1.key)) = some ([1, 0], [98])
      ∧ ((Dictionary.build ⟨#[{ bytes := [97], weight := ⟨0x80000000⟩ },
        { bytes := [98], weight := ⟨0x80000000⟩ }]⟩ .sorted).toOption.map fun (d, built) =>
          (built.entries.toList.map (·.id), (d.extensionSearch {}).1.key))
        = some ([0, 1], [97]) := by
  decide +kernel

end Dictionary

end Lexicon
