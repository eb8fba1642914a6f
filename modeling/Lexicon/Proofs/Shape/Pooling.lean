/-
Lexicon.Proofs.Shape.Pooling — strings given more than once count by what they weigh together.

Two lists of strings are `Pooled` if the same strings occur in both, and whatever bytes one
asks for, the strings that start with them weigh the same in all. How often a string is
given, in which order, and how its weight is shared out is then open. The labels of the
edges of a node are read off the strings (`branches_eq`), the weights off the sums, and what
is left below an edge is pooled again (`Pooled.below`), so layer by layer the nodes of both
trees have one outline (`outline_breadthFirst`). With natural weights the sums do not
depend on the order in which they are taken; this is what `Exact` asks for.
-/
import Lexicon.Proofs.Shape.Outline
import Lexicon.Proofs.Shape.Siblings

namespace Lexicon

/-! ## What an edge takes along -/

/-- The strings that start with a label. -/
def taking (ps : List Pending) (label : List UInt8) : List Pending :=
  ps.filter fun p => label.isPrefixOf p.rest

/-- The edge of a label, with the strings that start with it. -/
def edgeOn (ps : List Pending) (label : List UInt8) : Edge :=
  ⟨label, .ofNat (load (taking ps label)),
    (taking ps label).map fun p => { p with rest := p.rest.drop label.length }⟩

/-- The weights of some strings are natural numbers with an exact sum, and the strings are in
order. -/
structure Exact (ps : List Pending) : Prop where
  ordered : Ordered ps
  natural : ∀ p ∈ ps, p.weight.Natural
  small : load ps < 2 ^ 24

variable {ps qs : List Pending} {order : SiblingOrder}

theorem mem_taking {label : List UInt8} {p : Pending} :
    p ∈ taking ps label ↔ p ∈ ps ∧ label <+: p.rest := by
  rw [taking, List.mem_filter, List.isPrefixOf_iff_prefix]

theorem taking_runLabel (h : Ordered ps) {run : List Pending} (hrun : run ∈ runsOf ps) :
    taking ps (runLabel run) = run :=
  filter_eq_run h hrun (runLabel_ne_nil hrun) (List.prefix_refl _)

/-- With natural weights the edges are those of the labels. -/
theorem ofRuns_eq_map (h : Exact ps) :
    Edge.ofRuns (runsOf ps) = (branches ps).map (edgeOn ps) := by
  have hnatural : ∀ run ∈ runsOf ps, ∀ p ∈ run, p.weight.Natural := by
    intro run hrun p hp
    exact h.natural p ((run_sublist hrun).mem hp)
  have hlt : ∀ run ∈ runsOf ps, load run < 2 ^ 53 := by
    intro run hrun
    exact Nat.lt_of_le_of_lt (load_run_le hrun) (Nat.lt_trans h.small (by decide))
  rw [ofRuns_natural hnatural hlt, branches, List.map_map]
  apply List.map_congr_left
  intro run hrun
  rw [Function.comp_apply, edgeOn, taking_runLabel h.ordered hrun]
  rfl

/-! ## One list of labels for both -/

/-- The same strings occur in both lists, and those that start with some bytes weigh the same. -/
structure Pooled (ps qs : List Pending) : Prop where
  rests : ∀ rest, rest ∈ ps.map (·.rest) ↔ rest ∈ qs.map (·.rest)
  loads : ∀ label, load (taking ps label) = load (taking qs label)

theorem Pooled.symm (h : Pooled ps qs) : Pooled qs ps where
  rests rest := (h.rests rest).symm
  loads label := (h.loads label).symm

theorem Pooled.exists_of_mem (h : Pooled ps qs) {p : Pending} (hp : p ∈ ps) :
    ∃ q ∈ qs, q.rest = p.rest :=
  List.mem_map.mp ((h.rests p.rest).mp (List.mem_map_of_mem hp))

/-- A string that starts like those of a run is one of them. -/
theorem mem_run (h : Ordered ps) {run : List Pending} (hrun : run ∈ runsOf ps) {p q : Pending}
    (hp : p ∈ run) (hq : q ∈ ps) (hhead : q.rest.head? = p.rest.head?) : q ∈ run := by
  obtain ⟨a, more, hlabel⟩ := List.exists_cons_of_ne_nil (runLabel_ne_nil hrun)
  have hfront : [a] <+: runLabel run := hlabel ▸ ⟨more, rfl⟩
  have ha : p.rest.head? = some a := by rw [← head?_runLabel hrun hp, hlabel, List.head?_cons]
  rw [← filter_eq_run h hrun (List.cons_ne_nil a []) hfront, List.mem_filter]
  obtain ⟨rest, hrest⟩ := List.head?_eq_some_iff.mp (hhead.trans ha)
  exact ⟨hq, by simp [hrest]⟩

/-- The label of a run goes as far as the strings of the other list agree. -/
theorem Pooled.runLabel_prefix (h : Pooled ps qs) (hordered : Ordered ps)
    {run other : List Pending} (hrun : run ∈ runsOf ps) (hother : other ∈ runsOf qs)
    {p q : Pending} (hp : p ∈ run) (hq : q ∈ other) (hhead : q.rest.head? = p.rest.head?) :
    runLabel run <+: runLabel other := by
  apply prefix_runLabel (run_ne_nil hother)
  intro q' hq'
  obtain ⟨p', hp', hrest⟩ := h.symm.exists_of_mem ((run_sublist hother).mem hq')
  have hhead' : p'.rest.head? = p.rest.head? := by
    rw [hrest, head?_eq_of_run hother q' hq' q hq, hhead]
  rw [← hrest]
  exact Lexicon.runLabel_prefix p' (mem_run hordered hrun hp hp' hhead')

theorem Pooled.branches_subset (h : Pooled ps qs) (hps : Ordered ps) (hqs : Ordered qs) :
    branches ps ⊆ branches qs := by
  intro label hlabel
  obtain ⟨run, hrun, rfl⟩ := List.mem_map.mp hlabel
  obtain ⟨p, hp⟩ := List.exists_mem_of_ne_nil run (run_ne_nil hrun)
  obtain ⟨hmem, hne⟩ := mem_filter_of_mem_run hrun hp
  obtain ⟨q, hq, hrest⟩ := h.exists_of_mem hmem
  have hlive : q ∈ (runsOf qs).flatten := by
    rw [flatten_runsOf, List.mem_filter]
    simpa [hrest] using ⟨hq, hne⟩
  obtain ⟨other, hother, hqother⟩ := List.mem_flatten.mp hlive
  have hhead : q.rest.head? = p.rest.head? := by rw [hrest]
  have hsame : runLabel run = runLabel other :=
    (h.runLabel_prefix hps hrun hother hp hqother hhead).eq_of_length_le
      (h.symm.runLabel_prefix hqs hother hrun hqother hp hhead.symm).length_le
  rw [hsame]
  exact List.mem_map_of_mem hother

/-- Pooled strings branch alike. -/
theorem Pooled.branches_eq (h : Pooled ps qs) (hps : Ordered ps) (hqs : Ordered qs) :
    branches ps = branches qs := by
  have hnodup : ∀ {rs : List Pending}, Ordered rs → (branches rs).Nodup := by
    intro rs hrs
    refine (branches_by_label hrs).imp ?_
    intro label label' hlt heq
    exact Nat.ne_of_lt hlt (congrArg Sorting.label heq)
  have hperm : (branches ps).Perm (branches qs) := by
    rw [List.perm_ext_iff_of_nodup (hnodup hps) (hnodup hqs)]
    intro label
    exact ⟨fun hmem => h.branches_subset hps hqs hmem,
      fun hmem => h.symm.branches_subset hqs hps hmem⟩
  refine hperm.eq_of_pairwise ?_ (branches_by_label hps) (branches_by_label hqs)
  intro label label' _ _ hlt hgt
  exact absurd hlt (Nat.lt_asymm hgt)

/-! ## Below an edge -/

theorem taking_below (ps : List Pending) (label front : List UInt8) :
    taking (edgeOn ps label).below front = (taking ps (label ++ front)).map
      fun p => { p with rest := p.rest.drop label.length } := by
  rw [edgeOn, taking, List.filter_map, taking, taking, List.filter_filter]
  congr 1
  apply List.filter_congr
  intro p _
  rw [Bool.eq_iff_iff, Bool.and_eq_true, Function.comp_apply]
  simp only [List.isPrefixOf_iff_prefix]
  constructor
  · rintro ⟨hfront, more, hmore⟩
    rw [← hmore, List.drop_left] at hfront
    rw [← hmore, List.prefix_append_right_inj]
    exact hfront
  · rintro ⟨more, hmore⟩
    rw [← hmore, List.append_assoc, List.drop_left]
    exact ⟨List.prefix_append front more, List.prefix_append label _⟩

theorem load_taking_below (ps : List Pending) (label front : List UInt8) :
    load (taking (edgeOn ps label).below front) = load (taking ps (label ++ front)) := by
  rw [taking_below, load, List.map_map]
  rfl

theorem mem_rests_below {label rest : List UInt8} :
    rest ∈ (edgeOn ps label).below.map (·.rest) ↔ label ++ rest ∈ ps.map (·.rest) := by
  rw [edgeOn, List.map_map, List.mem_map, List.mem_map]
  constructor
  · rintro ⟨p, hp, rfl⟩
    obtain ⟨hmem, more, hmore⟩ := mem_taking.mp hp
    refine ⟨p, hmem, ?_⟩
    rw [Function.comp_apply, ← hmore, List.drop_left]
  · rintro ⟨p, hp, hrest⟩
    refine ⟨p, mem_taking.mpr ⟨hp, rest, hrest.symm⟩, ?_⟩
    rw [Function.comp_apply, hrest, List.drop_left]

/-- What is left below a label is pooled again. -/
theorem Pooled.below (h : Pooled ps qs) (label : List UInt8) :
    Pooled (edgeOn ps label).below (edgeOn qs label).below where
  rests rest := by rw [mem_rests_below, mem_rests_below, h.rests]
  loads front := by rw [load_taking_below, load_taking_below, h.loads]

/-- What is left below an edge is in order and exact again. -/
theorem Exact.below (h : Exact ps) {e : Edge} (he : e ∈ (Node.ofPending order ps).edges) :
    Exact e.below where
  ordered := ordered_below h.ordered he
  natural := by
    obtain ⟨run, hrun, _, hbelow⟩ := exists_run_of_edge he
    intro p hp
    rw [hbelow] at hp
    obtain ⟨q, hq, rfl⟩ := List.mem_map.mp hp
    exact h.natural q ((run_sublist hrun).mem hq)
  small := (weight_of_edge h.natural h.small he).2

/-! ## The nodes of both trees -/

/-- Pooled strings whose sums are exact. -/
structure Alike (ps qs : List Pending) : Prop where
  left : Exact ps
  right : Exact qs
  pooled : Pooled ps qs

/-- The edges of two nodes of pooled strings are those of one list of labels. -/
theorem Alike.exists_labels (h : Alike ps qs) (order : SiblingOrder) :
    ∃ labels : List (List UInt8), (Node.ofPending order ps).edges = labels.map (edgeOn ps)
      ∧ (Node.ofPending order qs).edges = labels.map (edgeOn qs) := by
  have hps : (Node.ofPending order ps).edges = order.arrange ((branches ps).map (edgeOn ps)) := by
    rw [← ofRuns_eq_map h.left]
    rfl
  have hqs : (Node.ofPending order qs).edges = order.arrange ((branches ps).map (edgeOn qs)) := by
    rw [h.pooled.branches_eq h.left.ordered h.right.ordered, ← ofRuns_eq_map h.right]
    rfl
  have hweight : ∀ label, (edgeOn qs label).weight = (edgeOn ps label).weight := by
    intro label
    exact congrArg Weight.ofNat (h.pooled.loads label).symm
  rw [hps, hqs]
  cases order with
  | label => exact ⟨branches ps, rfl, rfl⟩
  | weight =>
    refine ⟨_, Sorting.insertionSort_map _ (edgeOn ps) (branches ps), ?_⟩
    refine (Sorting.insertionSort_map _ (edgeOn qs) (branches ps)).trans ?_
    simp only [hweight]

/-- Two nodes of pooled strings have one outline. -/
theorem Alike.outline_eq (h : Alike ps qs) (order : SiblingOrder) :
    (Node.ofPending order ps).outline = (Node.ofPending order qs).outline := by
  have hended : ∀ rs : List Pending, (Node.ofPending order rs).ended.isEmpty = true
      ↔ [] ∉ rs.map (·.rest) := by
    intro rs
    unfold Node.ofPending
    simp [List.filter_eq_nil_iff]
  have hempty : (Node.ofPending order ps).ended.isEmpty
      = (Node.ofPending order qs).ended.isEmpty := by
    rw [Bool.eq_iff_iff, hended, hended, h.pooled.rests]
  have hedge : ∀ label, (edgeOn ps label).outline = (edgeOn qs label).outline := by
    intro label
    simp only [Edge.outline, edgeOn, h.pooled.loads label]
  obtain ⟨labels, hps, hqs⟩ := h.exists_labels order
  unfold Node.outline
  rw [hempty, hps, hqs, List.map_map, List.map_map, Function.comp_def, Function.comp_def]
  simp only [hedge]

/-- What the edges of two nodes of pooled strings lead to is pooled edge by edge. -/
theorem Alike.below (h : Alike ps qs) (order : SiblingOrder) :
    List.Forall₂ Alike ((Node.ofPending order ps).edges.map (·.below))
      ((Node.ofPending order qs).edges.map (·.below)) := by
  obtain ⟨labels, hps, hqs⟩ := h.exists_labels order
  have hleft : ∀ label ∈ labels, Exact (edgeOn ps label).below := by
    intro label hlabel
    exact h.left.below (hps ▸ List.mem_map_of_mem hlabel)
  have hright : ∀ label ∈ labels, Exact (edgeOn qs label).below := by
    intro label hlabel
    exact h.right.below (hqs ▸ List.mem_map_of_mem hlabel)
  rw [hps, hqs, List.map_map, List.map_map, List.forall₂_map_left_iff,
    List.forall₂_map_right_iff, List.forall₂_same]
  intro label hlabel
  exact ⟨hleft label hlabel, hright label hlabel, h.pooled.below label⟩

/-- Layer by layer the nodes of pooled strings have one outline. -/
theorem outline_breadthFirst (order : SiblingOrder) (fuel : Nat) {layer layer' : List (List Pending)}
    (h : List.Forall₂ Alike layer layer') :
    (breadthFirst order fuel layer).map Node.outline
      = (breadthFirst order fuel layer').map Node.outline := by
  induction fuel generalizing layer layer' with
  | zero => rfl
  | succ fuel ih =>
    have hlayer : ∀ {layer layer' : List (List Pending)}, List.Forall₂ Alike layer layer' →
        (layer.map (Node.ofPending order)).map Node.outline
          = (layer'.map (Node.ofPending order)).map Node.outline := by
      intro layer layer' hall
      induction hall with
      | nil => rfl
      | cons hhead _ ih => simp only [List.map_cons, hhead.outline_eq order, ih]
    have hnext : List.Forall₂ Alike (pendings (layer.map (Node.ofPending order)))
        (pendings (layer'.map (Node.ofPending order))) := by
      rw [pendings, pendings, List.flatMap_map, List.flatMap_map]
      exact List.rel_flatMap h fun _ _ halike => halike.below order
    rw [breadthFirst_succ, breadthFirst_succ, List.map_append, List.map_append, hlayer h, ih hnext]

/-! ## The trees of two lists of strings -/

namespace Shape

variable {strings strings' : List (List UInt8 × Weight)}

theorem mem_rests_sortedOf {rest : List UInt8} :
    rest ∈ (sortedOf .forward strings).map (·.rest) ↔ rest ∈ strings.map Prod.fst := by
  have hperm := (reaching_root strings).map Prod.fst
  rw [filter_nil_front, List.map_map] at hperm
  exact hperm.mem_iff

theorem load_taking_sortedOf (strings : List (List UInt8 × Weight)) (label : List UInt8) :
    load (taking (sortedOf .forward strings) label) = weightBelow strings label := by
  have hperm := ((reaching_root strings).filter fun x => label.isPrefixOf x.1).map
    fun x => x.2.toNat
  rw [filter_nil_front, List.filter_map, List.map_map] at hperm
  exact hperm.sum_nat

theorem exact_sortedOf (hnatural : ∀ x ∈ strings, x.2.Natural)
    (hsmall : weightBelow strings [] < 2 ^ 24) : Exact (sortedOf .forward strings) where
  ordered := ordered_sortedOf .forward strings
  natural := (reaching_root strings).natural hnatural
  small := by rwa [(reaching_root strings).load_eq]

theorem pooled_sortedOf
    (hstrings : ∀ string, string ∈ strings.map Prod.fst ↔ string ∈ strings'.map Prod.fst)
    (hweights : ∀ front, weightBelow strings front = weightBelow strings' front) :
    Pooled (sortedOf .forward strings) (sortedOf .forward strings') where
  rests rest := by rw [mem_rests_sortedOf, mem_rests_sortedOf, hstrings]
  loads label := by rw [load_taking_sortedOf, load_taking_sortedOf, hweights]

/-- The longest string of a list is no longer than that of a list with the same strings. -/
theorem longest_le {ps qs : List Pending} (h : Pooled ps qs) :
    ps.foldl (fun m p => max m p.rest.length) 0 ≤ qs.foldl (fun m p => max m p.rest.length) 0 := by
  apply Nat.le_of_lt_succ
  apply foldl_max_lt (fun p : Pending => p.rest.length) (Nat.succ_pos _)
  intro p hp
  obtain ⟨q, hq, hrest⟩ := h.exists_of_mem hp
  rw [← hrest]
  exact Nat.lt_succ_of_le ((le_foldl_max (fun p : Pending => p.rest.length) qs 0).2 q hq)

theorem outline_eq (order : SiblingOrder) (reading : Reading)
    (strings : List (List UInt8 × Weight)) : (ofStrings order reading strings).outline
      = ⟨(breadthFirst order
            ((sortedOf reading strings).foldl (fun m p => max m p.rest.length) 0 + 1)
            [sortedOf reading strings]).map Node.outline,
          Sorting.distinct ((sortedOf reading strings).map (·.rest)), 0⟩ :=
  rfl

theorem distinct_sortedOf (reading : Reading) (strings : List (List UInt8 × Weight)) :
    Sorting.distinct ((sortedOf reading strings).map (·.rest))
      = ((sortedOf reading strings).map (·.rest)).toFinset.card := by
  apply Sorting.distinct_eq_card
  rw [List.pairwise_map]
  exact ordered_sortedOf reading strings

/-- If the same strings weigh as much together, however they are given, their trees have one
outline. -/
theorem outline_ofStrings (order : SiblingOrder) (hnatural : ∀ x ∈ strings, x.2.Natural)
    (hnatural' : ∀ x ∈ strings', x.2.Natural) (hsmall : weightBelow strings [] < 2 ^ 24)
    (hstrings : ∀ string, string ∈ strings.map Prod.fst ↔ string ∈ strings'.map Prod.fst)
    (hweights : ∀ front, weightBelow strings front = weightBelow strings' front) :
    (ofStrings order .forward strings).outline = (ofStrings order .forward strings').outline := by
  have hpooled := pooled_sortedOf hstrings hweights
  have halike : Alike (sortedOf .forward strings) (sortedOf .forward strings') :=
    ⟨exact_sortedOf hnatural hsmall, exact_sortedOf hnatural' (hweights [] ▸ hsmall), hpooled⟩
  have hset : ((sortedOf .forward strings).map (·.rest)).toFinset
      = ((sortedOf .forward strings').map (·.rest)).toFinset := by
    ext rest
    rw [List.mem_toFinset, List.mem_toFinset, hpooled.rests]
  rw [outline_eq, outline_eq, distinct_sortedOf, distinct_sortedOf, hset,
    Nat.le_antisymm (longest_le hpooled) (longest_le hpooled.symm),
    outline_breadthFirst order _ (.cons halike .nil)]

end Shape

end Lexicon
