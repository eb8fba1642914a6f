/-
Lexicon.Proofs.Shape.Siblings — how the edges of a node are ordered by weight.

The weight of an edge is the sum over the strings that take it. With natural weights
these sums are exact, so sorting the edges by weight sorts them by number, and the sort
being stable, equal ones stay in label order (`edges_by_weight`). The strings that reach a
node are, with their weights, all those that start with its word
(`Shape.pending_perm_of_spells`), each as often as it was given; therefore the edge for a
byte has the weight of all strings that start with the word and the byte
(`Shape.load_of_enters`), wherever its label ends.
-/
import Lexicon.Proofs.Shape.Order
import Lexicon.Proofs.Weights

namespace Lexicon

/-- The sum of the numbers that the weights of some strings are. -/
def load (strings : List Pending) : Nat :=
  (strings.map (·.weight.toNat)).sum

variable {order : SiblingOrder} {strings : List Pending}

@[simp] theorem load_runBelow (run : List Pending) : load (runBelow run) = load run := by
  rw [load, runBelow, List.map_map]
  rfl

/-! ## Runs -/

theorem run_sublist {run : List Pending} (h : run ∈ runsOf strings) : run.Sublist strings := by
  have hflatten : run.Sublist (runsOf strings).flatten := List.sublist_flatten_of_mem h
  rw [flatten_runsOf] at hflatten
  exact hflatten.trans List.filter_sublist

theorem load_run_le {run : List Pending} (h : run ∈ runsOf strings) : load run ≤ load strings :=
  ((run_sublist h).map _).sum_le_sum fun _ _ => Nat.zero_le _

/-- Strings with different first bytes do not start alike. -/
theorem not_prefix_of_label_ne {front s t : List UInt8} (hne : front ≠ []) (hs : front <+: s)
    (h : Sorting.label s ≠ Sorting.label t) : ¬front <+: t := by
  rintro ⟨more', rfl⟩
  obtain ⟨more, rfl⟩ := hs
  apply h
  rw [label_eq_iff, List.head?_append_of_ne_nil _ hne, List.head?_append_of_ne_nil _ hne]

/-- The strings of a run are those that start like its label, however much of it is compared. -/
theorem filter_eq_run (h : Ordered strings) {run : List Pending} (hrun : run ∈ runsOf strings)
    {front : List UInt8} (hne : front ≠ []) (hfront : front <+: runLabel run) :
    strings.filter (fun p => front.isPrefixOf p.rest) = run := by
  have hlive : strings.filter (fun p => front.isPrefixOf p.rest)
      = (runsOf strings).flatten.filter fun p => front.isPrefixOf p.rest := by
    rw [flatten_runsOf, List.filter_filter]
    apply List.filter_congr
    intro p _
    cases hrest : p.rest with
    | nil => cases front <;> simp_all
    | cons b rest => simp
  have hstart : ∀ p ∈ run, front <+: p.rest := by
    intro p hp
    exact hfront.trans <| runLabel_prefix p hp
  have hown : run.filter (fun p => front.isPrefixOf p.rest) = run := by
    rw [List.filter_eq_self]
    intro p hp
    exact List.isPrefixOf_iff_prefix.mpr (hstart p hp)
  obtain ⟨p, hp⟩ := List.exists_mem_of_ne_nil run (run_ne_nil hrun)
  have hothers : ∀ runs : List (List Pending), (∀ other ∈ runs, ∀ q ∈ other,
      Sorting.label p.rest ≠ Sorting.label q.rest) →
      runs.flatten.filter (fun p => front.isPrefixOf p.rest) = [] := by
    intro runs hruns
    rw [List.filter_eq_nil_iff]
    intro q hq
    obtain ⟨other, hother, hmem⟩ := List.mem_flatten.mp hq
    rw [List.isPrefixOf_iff_prefix]
    exact not_prefix_of_label_ne hne (hstart p hp) (hruns other hother q hmem)
  obtain ⟨before, after, hsplit⟩ := List.append_of_mem hrun
  have hpairwise := runsOf_pairwise h
  rw [hsplit] at hpairwise
  obtain ⟨_, hafter, hbefore⟩ := List.pairwise_append.mp hpairwise
  rw [hlive, hsplit, List.flatten_append, List.flatten_cons, List.filter_append, List.filter_append,
    hown, hothers before ?before, hothers after ?after, List.nil_append, List.append_nil]
  case before =>
    intro other hother q hq
    exact Nat.ne_of_gt (hbefore other hother run List.mem_cons_self q hq p hp)
  case after =>
    intro other hother q hq
    exact Nat.ne_of_lt ((List.pairwise_cons.mp hafter).1 other hother p hp q hq)

/-! ## Edges by weight -/

/-- With natural weights every edge weighs what its run comes to. -/
theorem ofRuns_natural {runs : List (List Pending)}
    (hnatural : ∀ run ∈ runs, ∀ p ∈ run, p.weight.Natural) (hlt : ∀ run ∈ runs, load run < 2 ^ 53) :
    Edge.ofRuns runs = runs.map fun run => Edge.ofRun (.ofNat (load run)) run := by
  have hweights : ∀ run ∈ runs, (∀ w ∈ run.map (·.weight), w.Natural)
      ∧ ((run.map (·.weight)).map (·.toNat)).sum < 2 ^ 53
      ∧ ((run.map (·.weight)).map (·.toNat)).sum = load run := by
    intro run hrun
    have hsum : ((run.map (·.weight)).map (·.toNat)).sum = load run := by
      rw [List.map_map]
      rfl
    refine ⟨?_, by rw [hsum]; exact hlt run hrun, hsum⟩
    intro w hw
    obtain ⟨p, hp, rfl⟩ := List.mem_map.mp hw
    exact hnatural run hrun p hp
  cases runs with
  | nil => rfl
  | cons first later =>
    obtain ⟨hall, hsmall, hsum⟩ := hweights first List.mem_cons_self
    rw [Edge.ofRuns, List.map_cons, firstRunWeight_natural hall hsmall, hsum]
    congr 1
    apply List.map_congr_left
    intro run hrun
    obtain ⟨hall, hsmall, hsum⟩ := hweights run (List.mem_cons_of_mem first hrun)
    rw [laterRunWeight_natural hall hsmall, hsum]

/-- One edge has more weight than another, or as much and the lesser first byte. -/
def Edge.Outweighs (e e' : Edge) : Prop :=
  load e'.below < load e.below
    ∨ (load e.below = load e'.below ∧ Sorting.label e.label < Sorting.label e'.label)

/-- The labels of the edges of a node by their first bytes. -/
def branches (strings : List Pending) : List (List UInt8) :=
  (runsOf strings).map runLabel

/-- The labels stand by their first bytes. -/
theorem branches_by_label (h : Ordered strings) :
    (branches strings).Pairwise fun label label' => Sorting.label label < Sorting.label label' := by
  rw [branches, List.pairwise_map]
  refine (runsOf_pairwise h).imp_of_mem ?_
  intro run other hrun hother hbefore
  obtain ⟨p, hp⟩ := List.exists_mem_of_ne_nil run (run_ne_nil hrun)
  obtain ⟨q, hq⟩ := List.exists_mem_of_ne_nil other (run_ne_nil hother)
  rw [label_eq_iff.mpr (head?_runLabel hrun hp), label_eq_iff.mpr (head?_runLabel hother hq)]
  exact hbefore p hp q hq

/-- Before they are arranged the edges stand by their first bytes. -/
theorem ofRuns_by_label (h : Ordered strings) : (Edge.ofRuns (runsOf strings)).Pairwise
    fun e e' => Sorting.label e.label < Sorting.label e'.label := by
  have hlabels : (Edge.ofRuns (runsOf strings)).map (·.label) = branches strings := by
    have hroutes := congrArg (List.map Prod.fst) (Edge.map_route_ofRuns (runsOf strings))
    rw [List.map_map, List.map_map] at hroutes
    exact hroutes
  have hpairwise := branches_by_label h
  rw [← hlabels, List.pairwise_map] at hpairwise
  exact hpairwise

theorem weight_of_edge (hnatural : ∀ p ∈ strings, p.weight.Natural) (hlt : load strings < 2 ^ 24)
    {e : Edge} (he : e ∈ (Node.ofPending order strings).edges) :
    e.weight = .ofNat (load e.below) ∧ load e.below < 2 ^ 24 := by
  have hruns : Edge.ofRuns (runsOf strings)
      = (runsOf strings).map fun run => Edge.ofRun (.ofNat (load run)) run := by
    refine ofRuns_natural ?_ ?_
    · intro run hrun p hp
      exact hnatural p ((run_sublist hrun).mem hp)
    · intro run hrun
      exact Nat.lt_of_le_of_lt (load_run_le hrun) (Nat.lt_trans hlt (by decide))
  have hmem := (order.arrange_perm _).mem_iff.mp he
  change e ∈ Edge.ofRuns (runsOf strings) at hmem
  rw [hruns] at hmem
  obtain ⟨run, hrun, rfl⟩ := List.mem_map.mp hmem
  have hload : load (Edge.ofRun (.ofNat (load run)) run).below = load run := load_runBelow run
  rw [hload]
  exact ⟨rfl, Nat.lt_of_le_of_lt (load_run_le hrun) hlt⟩

/-- Sorted by weight, every edge is at least as heavy as those behind it, and where it is no heavier
it has the lesser first byte. -/
theorem edges_stable (h : Ordered strings) : (Node.ofPending .weight strings).edges.Pairwise
    (Sorting.StableBefore (fun a b : Edge => decide (b.weight.key ≤ a.weight.key))
      fun e e' => Sorting.label e.label < Sorting.label e'.label) := by
  refine Sorting.insertionSort_stable ?_ ?_ (ofRuns_by_label h)
  · intro e e'
    simp only [decide_eq_true_eq]
    exact Int.le_total _ _
  · intro e e' e'' hle hle'
    simp only [decide_eq_true_eq] at hle hle' ⊢
    exact Int.le_trans hle' hle

/-- The edges of a node stand by falling weight, those of equal weight in label order. -/
theorem edges_by_weight (h : Ordered strings) (hnatural : ∀ p ∈ strings, p.weight.Natural)
    (hlt : load strings < 2 ^ 24) :
    (Node.ofPending .weight strings).edges.Pairwise Edge.Outweighs := by
  refine (edges_stable h).imp_of_mem ?_
  rintro e e' he he' ⟨hle, hcame⟩
  obtain ⟨hkey, hsmall⟩ := weight_of_edge hnatural hlt he
  obtain ⟨hkey', hsmall'⟩ := weight_of_edge hnatural hlt he'
  have hnot : ¬load e.below < load e'.below := by
    rw [← Weight.key_ofNat_lt_iff hsmall hsmall', ← hkey, ← hkey']
    exact Int.not_lt.mpr (of_decide_eq_true hle)
  rcases Nat.lt_or_eq_of_le (Nat.le_of_not_lt hnot) with hless | heq
  · exact Or.inl hless
  · refine Or.inr ⟨heq.symm, hcame ?_⟩
    have hsame : e.weight = e'.weight := by rw [hkey, hkey', heq]
    exact decide_eq_true (Int.le_of_eq (congrArg Weight.key hsame))

/-! ## The strings at a node -/

/-- Some strings as they are read, with their weights. -/
def readBy (reading : Reading) (strings : List (List UInt8 × Weight)) :
    List (List UInt8 × Weight) :=
  strings.map fun x => (reading.read x.1, x.2)

@[simp] theorem readBy_forward (strings : List (List UInt8 × Weight)) :
    readBy .forward strings = strings :=
  List.map_id strings

/-- The sum of the weights of all strings that start with the given bytes. -/
def weightBelow (strings : List (List UInt8 × Weight)) (front : List UInt8) : Nat :=
  ((strings.filter fun x => front.isPrefixOf x.1).map (·.2.toNat)).sum

/-- Behind some bytes the first byte has more weight than the second, or as much and is less. -/
def Outweighs (strings : List (List UInt8 × Weight)) (front : List UInt8) (a b : UInt8) : Prop :=
  weightBelow strings (front ++ [b]) < weightBelow strings (front ++ [a])
    ∨ (weightBelow strings (front ++ [a]) = weightBelow strings (front ++ [b]) ∧ a < b)

theorem Outweighs.asymm {strings : List (List UInt8 × Weight)} (front : List UInt8) (a b : UInt8)
    (h : Outweighs strings front a b) : ¬Outweighs strings front b a := by
  rw [Outweighs, UInt8.lt_iff_toNat_lt] at h ⊢
  omega

/-- Every string starts with no bytes. -/
theorem filter_nil_front (strings : List (List UInt8 × Weight)) :
    strings.filter (fun x => ([] : List UInt8).isPrefixOf x.1) = strings :=
  List.filter_eq_self.mpr fun _ _ => rfl

theorem weightBelow_le (strings : List (List UInt8 × Weight)) (front : List UInt8) :
    weightBelow strings front ≤ weightBelow strings [] := by
  rw [weightBelow, weightBelow, filter_nil_front]
  exact (List.filter_sublist.map _).sum_le_sum fun _ _ => Nat.zero_le _

namespace Shape

variable {order : SiblingOrder} {strings : List (List UInt8 × Weight)} {ps : List Pending}
  {u v : Nat} {w : List UInt8} {e : Edge}

/-- The strings that reach a node are all those that start with its word, with their weights. -/
def Reaching (strings : List (List UInt8 × Weight)) (w : List UInt8) (ps : List Pending) : Prop :=
  (ps.map fun p => (w ++ p.rest, p.weight)).Perm (strings.filter fun x => w.isPrefixOf x.1)

theorem Reaching.load_eq (h : Reaching strings w ps) : load ps = weightBelow strings w := by
  have hsum := (List.Perm.map (fun x : List UInt8 × Weight => x.2.toNat) h).sum_nat
  rw [List.map_map] at hsum
  exact hsum

theorem Reaching.natural (h : Reaching strings w ps) (hnatural : ∀ x ∈ strings, x.2.Natural) :
    ∀ p ∈ ps, p.weight.Natural := by
  intro p hp
  have hmem := h.mem_iff.mp (List.mem_map_of_mem hp)
  exact hnatural _ (List.mem_of_mem_filter hmem)

/-- The strings of a run are all those that go on like its label, however much of it is compared. -/
theorem Reaching.run (h : Reaching strings w ps) (hordered : Ordered ps) {run : List Pending}
    (hrun : run ∈ runsOf ps) {front : List UInt8} (hne : front ≠ [])
    (hfront : front <+: runLabel run) :
    (run.map fun p => (w ++ p.rest, p.weight)).Perm
      (strings.filter fun x => (w ++ front).isPrefixOf x.1) := by
  have hcancel : ∀ s : List UInt8, (w ++ front).isPrefixOf (w ++ s) = front.isPrefixOf s := by
    intro s
    rw [Bool.eq_iff_iff, List.isPrefixOf_iff_prefix, List.isPrefixOf_iff_prefix,
      List.prefix_append_right_inj]
  have htaken : (ps.map fun p => (w ++ p.rest, p.weight)).filter
      (fun x => (w ++ front).isPrefixOf x.1) = run.map fun p => (w ++ p.rest, p.weight) := by
    rw [List.filter_map]
    simp only [Function.comp_def, hcancel]
    rw [filter_eq_run hordered hrun hne hfront]
  have hboth : (strings.filter fun x => w.isPrefixOf x.1).filter
      (fun x => (w ++ front).isPrefixOf x.1)
        = strings.filter fun x => (w ++ front).isPrefixOf x.1 := by
    rw [List.filter_filter]
    apply List.filter_congr
    intro x _
    rw [Bool.eq_iff_iff, Bool.and_eq_true, List.isPrefixOf_iff_prefix, List.isPrefixOf_iff_prefix]
    exact and_iff_left_of_imp fun hlong => (List.prefix_append w front).trans hlong
  rw [← htaken, ← hboth]
  exact h.filter _

/-- All strings reach the root, as they are read. -/
theorem reaching_sortedOf (reading : Reading) (strings : List (List UInt8 × Weight)) :
    Reaching (readBy reading strings) [] (sortedOf reading strings) := by
  have hpending : (pendingOf reading strings).map
      (fun p => (([] : List UInt8) ++ p.rest, p.weight)) = readBy reading strings := by
    rw [pendingOf, List.map_map, readBy]
    conv_rhs => rw [← List.zipIdx_map_fst 0 strings, List.map_map]
    rfl
  have hperm := (sortedOf_perm reading strings).map
    fun p => (([] : List UInt8) ++ p.rest, p.weight)
  rw [hpending] at hperm
  rwa [Reaching, filter_nil_front]

theorem reaching_root (strings : List (List UInt8 × Weight)) :
    Reaching strings [] (sortedOf .forward strings) := by
  have h := reaching_sortedOf .forward strings
  rwa [readBy_forward] at h

/-- What an edge leads to is all that goes on from its node with its label. -/
theorem Reaching.below (h : Reaching strings w ps) (hordered : Ordered ps)
    (he : e ∈ (Node.ofPending order ps).edges) : Reaching strings (w ++ e.label) e.below := by
  obtain ⟨run, hrun, hlabel, hbelow⟩ := exists_run_of_edge he
  have hall := h.run hordered hrun (runLabel_ne_nil hrun) (List.prefix_refl _)
  have hsame : e.below.map (fun p => (w ++ e.label ++ p.rest, p.weight))
      = run.map fun p => (w ++ p.rest, p.weight) := by
    rw [hbelow, runBelow, List.map_map]
    apply List.map_congr_left
    intro p hp
    simp only [Function.comp_def, List.append_assoc, hlabel, ← rest_eq_runLabel_append hp]
  rw [Reaching, hsame, hlabel]
  exact hall

/-- Every node is made from the strings that are read with its word first. -/
theorem exists_reaching_read {reading : Reading}
    (h : (ofStrings order reading strings).Spells v w) :
    ∃ ps, Ordered ps
      ∧ (ofStrings order reading strings).nodes[v]? = some (Node.ofPending order ps)
      ∧ Reaching (readBy reading strings) w ps := by
  induction h with
  | root =>
    exact ⟨_, ordered_sortedOf reading strings, root_ofStrings, reaching_sortedOf reading strings⟩
  | @down u v w e hu he ih =>
    obtain ⟨ps, hordered, hnode, hreaching⟩ := ih
    obtain ⟨j, hj, _⟩ := he.exists_edge hnode
    have hmem := List.mem_of_getElem? hj
    exact ⟨e.below, ordered_below hordered hmem, node_of_enters he, hreaching.below hordered hmem⟩

/-- Every node is made from the strings that start with its word. -/
theorem exists_reaching (h : (ofStrings order .forward strings).Spells v w) :
    ∃ ps, Ordered ps
      ∧ (ofStrings order .forward strings).nodes[v]? = some (Node.ofPending order ps)
      ∧ Reaching strings w ps := by
  have hreaching := exists_reaching_read h
  rwa [readBy_forward] at hreaching

/-- An edge has the weight of all strings that start with its node's word and its first byte. -/
theorem load_of_enters (hu : (ofStrings order .forward strings).Spells u w)
    (he : (ofStrings order .forward strings).Enters u e v) {a : UInt8}
    (ha : e.label.head? = some a) : load e.below = weightBelow strings (w ++ [a]) := by
  obtain ⟨ps, hordered, hnode, hreaching⟩ := exists_reaching hu
  obtain ⟨j, hj, _⟩ := he.exists_edge hnode
  obtain ⟨run, hrun, hlabel, hbelow⟩ := exists_run_of_edge (List.mem_of_getElem? hj)
  have hfront : [a] <+: runLabel run := by
    obtain ⟨more, hmore⟩ := List.head?_eq_some_iff.mp (hlabel ▸ ha)
    rw [hmore]
    exact ⟨more, rfl⟩
  have hsum := ((hreaching.run hordered hrun (List.cons_ne_nil a []) hfront).map
    fun x => x.2.toNat).sum_nat
  rw [List.map_map] at hsum
  rw [hbelow, load_runBelow]
  exact hsum

/-- What holds between the edges of a node in their order holds between the edges into its children
in theirs. -/
theorem before_of_enters {s : Shape} {node : Node} {e' : Edge} {v' : Nat}
    {before : Edge → Edge → Prop} (hnode : s.nodes[u]? = some node)
    (hedges : node.edges.Pairwise before) (he : s.Enters u e v) (he' : s.Enters u e' v')
    (hlt : v < v') : before e e' := by
  obtain ⟨j, hj, rfl⟩ := he.exists_edge hnode
  obtain ⟨j', hj', rfl⟩ := he'.exists_edge hnode
  obtain ⟨hjlt, rfl⟩ := List.getElem?_eq_some_iff.mp hj
  obtain ⟨hjlt', rfl⟩ := List.getElem?_eq_some_iff.mp hj'
  exact List.pairwise_iff_getElem.mp hedges j j' hjlt hjlt' (by omega)

/-- Labels compare like their first bytes. -/
theorem label_lt_iff {label label' : List UInt8} {a b : UInt8} (ha : label.head? = some a)
    (hb : label'.head? = some b) : Sorting.label label < Sorting.label label' ↔ a < b := by
  obtain ⟨more, rfl⟩ := List.head?_eq_some_iff.mp ha
  obtain ⟨more', rfl⟩ := List.head?_eq_some_iff.mp hb
  rw [UInt8.lt_iff_toNat_lt]
  simp only [Sorting.label]
  omega

/-- Sorted by natural weights, siblings stand by the weight of the strings below them. -/
theorem ranked_by_weight (hnatural : ∀ x ∈ strings, x.2.Natural)
    (hlt : weightBelow strings [] < 2 ^ 24) :
    (ofStrings .weight .forward strings).Ranked (Outweighs strings) := by
  intro u v v' w e e' a b hu he he' hvv' ha hb
  obtain ⟨ps, hordered, hnode, hreaching⟩ := exists_reaching hu
  have hload : load ps < 2 ^ 24 := by
    rw [hreaching.load_eq]
    exact Nat.lt_of_le_of_lt (weightBelow_le strings w) hlt
  have hedges := edges_by_weight hordered (hreaching.natural hnatural) hload
  have hbefore := before_of_enters hnode hedges he he' hvv'
  rwa [Edge.Outweighs, load_of_enters hu he ha, load_of_enters hu he' hb,
    label_lt_iff ha hb] at hbefore

/-- Not sorted by weight, siblings stay by their first bytes, whatever the strings weigh. -/
theorem ranked_by_label : (ofStrings .label .forward strings).Ranked fun _ a b => a < b := by
  intro u v v' w e e' a b hu he he' hvv' ha hb
  obtain ⟨ps, hordered, hnode, _⟩ := exists_reaching hu
  have hedges : (Node.ofPending .label ps).edges.Pairwise
      fun e e' => Sorting.label e.label < Sorting.label e'.label := ofRuns_by_label hordered
  exact (label_lt_iff ha hb).mp (before_of_enters hnode hedges he he' hvv')

end Shape

end Lexicon
