/-
Lexicon.Proofs.Shape.Nodes — what one node makes of the strings that reach it.

The strings of a sorted list that go on are cut into runs of one first byte, and
every run takes an edge. `map_route_edges` says what the edges are without their weights:
the longest common front of each run, and the run without it. From this follow the
facts that the tree is built on: an edge has a label (`label_ne_nil_of_edge`), no
two edges of a node start with one byte (`edges_apart`), every string goes on along
exactly what is left of it (`exists_edge_of_pending`, `exists_pending_of_edge`), and
every byte of a string is used up by one label, however bytes are counted (`tallyLeft_edges`).
-/
import Lexicon.Level.Shape
import Lexicon.Proofs.Sorting.Strings
import Mathlib.Algebra.BigOperators.Ring.List
import Mathlib.Algebra.Ring.Nat
import Mathlib.Data.List.SplitBy

namespace Lexicon

/-! ## Common fronts -/

theorem commonPrefix_prefix_left : ∀ (s t : List UInt8), commonPrefix s t <+: s
  | [], _ => List.nil_prefix
  | _ :: _, [] => List.nil_prefix
  | a :: s, b :: t => by
      rw [commonPrefix]
      split
      · exact List.prefix_cons_inj a |>.mpr (commonPrefix_prefix_left s t)
      · exact List.nil_prefix

theorem commonPrefix_prefix_right : ∀ (s t : List UInt8), commonPrefix s t <+: t
  | [], _ => List.nil_prefix
  | _ :: _, [] => List.nil_prefix
  | a :: s, b :: t => by
      rw [commonPrefix]
      split
      · rename_i h
        rw [h]
        exact List.prefix_cons_inj b |>.mpr (commonPrefix_prefix_right s t)
      · exact List.nil_prefix

theorem prefix_commonPrefix : ∀ {front s t : List UInt8}, front <+: s → front <+: t →
    front <+: commonPrefix s t
  | [], _, _, _, _ => List.nil_prefix
  | c :: front, [], _, hs, _ => absurd hs (by simp)
  | c :: front, a :: s, [], _, ht => absurd ht (by simp)
  | c :: front, a :: s, b :: t, hs, ht => by
      obtain ⟨hca, hs'⟩ := List.cons_prefix_cons.mp hs
      obtain ⟨hcb, ht'⟩ := List.cons_prefix_cons.mp ht
      rw [commonPrefix, if_pos (hca.symm.trans hcb), ← hca]
      exact List.prefix_cons_inj c |>.mpr (prefix_commonPrefix hs' ht')

theorem commonPrefix_of_parting (front : List UInt8) {a b : UInt8} (h : a ≠ b)
    (x y : List UInt8) : commonPrefix (front ++ a :: x) (front ++ b :: y) = front := by
  induction front with
  | nil => exact if_neg h
  | cons c front ih =>
    rw [List.cons_append, List.cons_append, commonPrefix, if_pos rfl, ih]

theorem commonPrefix_of_front {x y : List UInt8} (h : x <+: y) : commonPrefix x y = x :=
  (commonPrefix_prefix_left x y).eq_of_length_le
    (prefix_commonPrefix (List.prefix_refl x) h).length_le

theorem commonPrefix_of_front_right {x y : List UInt8} (h : y <+: x) : commonPrefix x y = y :=
  (commonPrefix_prefix_right x y).eq_of_length_le
    (prefix_commonPrefix h (List.prefix_refl y)).length_le

/-- The bytes with which all strings of a run start. -/
def runLabel : List Pending → List UInt8
  | [] => []
  | first :: others => others.foldl (fun label p => commonPrefix label p.rest) first.rest

/-- The strings of a run without their common front. -/
def runBelow (run : List Pending) : List Pending :=
  run.map fun p => { p with rest := p.rest.drop (runLabel run).length }

theorem foldl_commonPrefix (others : List Pending) (label : List UInt8) :
    others.foldl (fun label p => commonPrefix label p.rest) label <+: label
      ∧ (∀ p ∈ others, others.foldl (fun label p => commonPrefix label p.rest) label <+: p.rest)
      ∧ ∀ front, front <+: label → (∀ p ∈ others, front <+: p.rest) →
          front <+: others.foldl (fun label p => commonPrefix label p.rest) label := by
  induction others generalizing label with
  | nil => simp
  | cons q others ih =>
    obtain ⟨hlabel, hall, hlongest⟩ := ih (commonPrefix label q.rest)
    rw [List.foldl_cons]
    refine ⟨hlabel.trans (commonPrefix_prefix_left _ _), ?_, ?_⟩
    · intro p hp
      rcases List.mem_cons.mp hp with rfl | hp
      · exact hlabel.trans (commonPrefix_prefix_right _ _)
      · exact hall p hp
    · intro front hfront hothers
      refine hlongest front (prefix_commonPrefix hfront (hothers q List.mem_cons_self)) ?_
      intro p hp
      exact hothers p (List.mem_cons_of_mem q hp)

theorem runLabel_prefix : ∀ {run : List Pending}, ∀ p ∈ run, runLabel run <+: p.rest
  | first :: others, p, hp => by
      obtain ⟨hfirst, hothers, _⟩ := foldl_commonPrefix others first.rest
      rcases List.mem_cons.mp hp with rfl | hp
      · exact hfirst
      · exact hothers p hp

/-- No longer string is a front of all of them. -/
theorem prefix_runLabel {run : List Pending} (hne : run ≠ []) {front : List UInt8}
    (h : ∀ p ∈ run, front <+: p.rest) : front <+: runLabel run := by
  cases run with
  | nil => exact absurd rfl hne
  | cons first others =>
    refine (foldl_commonPrefix others first.rest).2.2 front (h first List.mem_cons_self) ?_
    intro p hp
    exact h p (List.mem_cons_of_mem first hp)

/-- A string of a run is the common front and what is left below. -/
theorem rest_eq_runLabel_append {run : List Pending} {p : Pending} (hp : p ∈ run) :
    p.rest = runLabel run ++ p.rest.drop (runLabel run).length := by
  obtain ⟨more, hmore⟩ := runLabel_prefix p hp
  rw [← hmore, List.drop_left]

/-! ## Runs -/

/-- The strings that go on, cut where the first byte changes. -/
def runsOf (strings : List Pending) : List (List Pending) :=
  (strings.filter (!·.rest.isEmpty)).splitBy fun p q => p.rest.head? == q.rest.head?

/-- The strings are in order. -/
def Ordered (strings : List Pending) : Prop :=
  strings.Pairwise fun p q => Sorting.bytesLe p.rest q.rest = true

variable {strings : List Pending}

theorem flatten_runsOf : (runsOf strings).flatten = strings.filter (!·.rest.isEmpty) :=
  List.flatten_splitBy _ _

theorem mem_filter_of_mem_run {run : List Pending} {p : Pending} (hrun : run ∈ runsOf strings)
    (hp : p ∈ run) : p ∈ strings ∧ p.rest ≠ [] := by
  have hmem : p ∈ (runsOf strings).flatten := List.mem_flatten.mpr ⟨run, hrun, hp⟩
  rw [flatten_runsOf, List.mem_filter] at hmem
  simpa using hmem

theorem run_ne_nil {run : List Pending} (h : run ∈ runsOf strings) : run ≠ [] :=
  List.ne_nil_of_mem_splitBy h

/-- All strings of a run start with one byte. -/
theorem head?_eq_of_run {run : List Pending} (h : run ∈ runsOf strings) :
    ∀ p ∈ run, ∀ q ∈ run, p.rest.head? = q.rest.head? := by
  have hchain : (run.map (·.rest.head?)).IsChain (· = ·) := by
    rw [List.isChain_map]
    exact (List.isChain_of_mem_splitBy h).imp fun p q hpq => by simpa using hpq
  have hpairwise := List.isChain_iff_pairwise.mp hchain
  intro p hp q hq
  exact hpairwise.forall_of_forall (fun _ _ => rfl) (List.mem_map_of_mem hp) (List.mem_map_of_mem hq)

theorem label_eq_iff {s t : List UInt8} : Sorting.label s = Sorting.label t ↔ s.head? = t.head? := by
  cases s with
  | nil => cases t <;> simp [Sorting.label]
  | cons a s =>
    cases t with
    | nil => simp [Sorting.label]
    | cons b t => simp [Sorting.label, UInt8.toNat_inj]

/-- Every string of one run stands before every string of the other. -/
def Before (run other : List Pending) : Prop :=
  ∀ p ∈ run, ∀ q ∈ other, Sorting.label p.rest < Sorting.label q.rest

/-- Neighbouring runs of a sorted list start with different bytes, so all runs do. -/
theorem pairwise_before : ∀ {runs : List (List Pending)}, (∀ run ∈ runs, run ≠ []) →
    (∀ run ∈ runs, ∀ p ∈ run, ∀ q ∈ run, p.rest.head? = q.rest.head?) →
    runs.IsChain (fun run other => ∃ h h',
      ((run.getLast h).rest.head? == (other.head h').rest.head?) = false) →
    Ordered runs.flatten → runs.Pairwise Before
  | [], _, _, _, _ => List.Pairwise.nil
  | [run], _, _, _, _ => List.pairwise_singleton _ run
  | run :: other :: runs, hne, hsame, hchain, hordered => by
      obtain ⟨hlast, hrest⟩ := List.isChain_cons_cons.mp hchain
      obtain ⟨h, h', hdiffer⟩ := hlast
      rw [List.flatten_cons] at hordered
      obtain ⟨_, hflatten, hacross⟩ := List.pairwise_append.mp hordered
      have ih : (other :: runs).Pairwise Before := by
        refine pairwise_before ?_ ?_ hrest hflatten
        · intro r hr
          exact hne r (List.mem_cons_of_mem run hr)
        · intro r hr
          exact hsame r (List.mem_cons_of_mem run hr)
      have hnext : Before run other := by
        intro p hp q hq
        have hle := Sorting.label_le_of_bytesLe
          (hacross p hp q (List.mem_flatten.mpr ⟨other, List.mem_cons_self, hq⟩))
        have hp' := hsame run List.mem_cons_self p hp _ (List.getLast_mem h)
        have hq' := hsame other (by simp) q hq _ (List.head_mem h')
        have hne' : Sorting.label p.rest ≠ Sorting.label q.rest := by
          intro heq
          rw [label_eq_iff, hp', hq'] at heq
          simp [heq] at hdiffer
        omega
      refine List.pairwise_cons.mpr ⟨?_, ih⟩
      intro r hr
      rcases List.mem_cons.mp hr with rfl | hr
      · exact hnext
      · intro p hp q hq
        have hmiddle := List.head_mem h'
        exact Nat.lt_trans (hnext p hp _ hmiddle) ((List.pairwise_cons.mp ih).1 r hr _ hmiddle q hq)

theorem runsOf_pairwise (h : Ordered strings) : (runsOf strings).Pairwise Before := by
  have hchain := List.isChain_getLast_head_splitBy
    (fun p q : Pending => p.rest.head? == q.rest.head?) (strings.filter (!·.rest.isEmpty))
  have hflatten : Ordered (runsOf strings).flatten := by
    rw [flatten_runsOf]
    exact h.filter _
  exact pairwise_before (fun run hrun => run_ne_nil hrun) (fun run hrun => head?_eq_of_run hrun)
    hchain hflatten

/-- The label of a run is not empty: it holds at least the byte that all its strings share. -/
theorem runLabel_ne_nil {run : List Pending} (h : run ∈ runsOf strings) : runLabel run ≠ [] := by
  cases hrun : run with
  | nil => exact absurd hrun (run_ne_nil h)
  | cons first others =>
    have hfirst : first ∈ run := by simp [hrun]
    cases hrest : first.rest with
    | nil => exact absurd hrest (mem_filter_of_mem_run h hfirst).2
    | cons b rest =>
      have hfront : [b] <+: runLabel run := by
        refine prefix_runLabel (run_ne_nil h) ?_
        intro p hp
        have hhead := head?_eq_of_run h p hp first hfirst
        rw [hrest, List.head?_cons] at hhead
        obtain ⟨more, hmore⟩ := List.head?_eq_some_iff.mp hhead
        rw [hmore]
        exact ⟨more, rfl⟩
      rw [← hrun]
      intro hnil
      rw [hnil] at hfront
      simp at hfront

theorem head?_runLabel {run : List Pending} (h : run ∈ runsOf strings) {p : Pending} (hp : p ∈ run) :
    (runLabel run).head? = p.rest.head? := by
  obtain ⟨more, hmore⟩ := runLabel_prefix p hp
  rw [← hmore, List.head?_append_of_ne_nil _ (runLabel_ne_nil h)]

/-! ## Edges -/

/-- What an edge is without its weight. -/
def Edge.route (e : Edge) : List UInt8 × List Pending :=
  (e.label, e.below)

theorem Edge.route_ofRun (weight : Weight) (run : List Pending) :
    (Edge.ofRun weight run).route = (runLabel run, runBelow run) := by
  rfl

theorem Edge.map_route_ofRuns : ∀ (runs : List (List Pending)),
    (Edge.ofRuns runs).map Edge.route = runs.map fun run => (runLabel run, runBelow run)
  | [] => rfl
  | first :: later => by
      rw [Edge.ofRuns, List.map_cons, List.map_cons, Edge.route_ofRun, List.map_map]
      rfl

theorem SiblingOrder.arrange_perm (order : SiblingOrder) (edges : List Edge) :
    (order.arrange edges).Perm edges := by
  cases order with
  | label => exact List.Perm.refl _
  | weight => exact Sorting.insertionSort_perm _ _

variable {order : SiblingOrder}

/-- The edges of a node are those of its runs, in some order. -/
theorem map_route_edges (order : SiblingOrder) (strings : List Pending) :
    ((Node.ofPending order strings).edges.map Edge.route).Perm
      ((runsOf strings).map fun run => (runLabel run, runBelow run)) := by
  rw [← Edge.map_route_ofRuns]
  exact (order.arrange_perm _).map _

theorem exists_run_of_edge {e : Edge} (h : e ∈ (Node.ofPending order strings).edges) :
    ∃ run ∈ runsOf strings, e.label = runLabel run ∧ e.below = runBelow run := by
  have hmem := (map_route_edges order strings).mem_iff.mp (List.mem_map_of_mem h)
  obtain ⟨run, hrun, heq⟩ := List.mem_map.mp hmem
  obtain ⟨hlabel, hbelow⟩ := Prod.mk.inj heq
  exact ⟨run, hrun, hlabel.symm, hbelow.symm⟩

theorem exists_edge_of_run {run : List Pending} (h : run ∈ runsOf strings) :
    ∃ e ∈ (Node.ofPending order strings).edges, e.label = runLabel run ∧ e.below = runBelow run := by
  have hmem := (map_route_edges order strings).mem_iff.mpr
    (List.mem_map.mpr ⟨run, h, rfl⟩)
  obtain ⟨e, he, heq⟩ := List.mem_map.mp hmem
  obtain ⟨hlabel, hbelow⟩ := Prod.mk.inj heq
  exact ⟨e, he, hlabel, hbelow⟩

theorem label_ne_nil_of_edge {e : Edge} (h : e ∈ (Node.ofPending order strings).edges) :
    e.label ≠ [] := by
  obtain ⟨run, hrun, hlabel, _⟩ := exists_run_of_edge h
  rw [hlabel]
  exact runLabel_ne_nil hrun

theorem below_ne_nil_of_edge {e : Edge} (h : e ∈ (Node.ofPending order strings).edges) :
    e.below ≠ [] := by
  obtain ⟨run, hrun, _, hbelow⟩ := exists_run_of_edge h
  rw [hbelow, runBelow, Ne, List.map_eq_nil_iff]
  exact run_ne_nil hrun

/-- A string below an edge is what some string of the node has behind the label. -/
theorem exists_pending_of_edge {e : Edge} (h : e ∈ (Node.ofPending order strings).edges)
    {p : Pending} (hp : p ∈ e.below) :
    ∃ q ∈ strings, q.rest = e.label ++ p.rest ∧ q.index = p.index := by
  obtain ⟨run, hrun, hlabel, hbelow⟩ := exists_run_of_edge h
  rw [hbelow] at hp
  obtain ⟨q, hq, rfl⟩ := List.mem_map.mp hp
  exact ⟨q, (mem_filter_of_mem_run hrun hq).1, by rw [hlabel]; exact rest_eq_runLabel_append hq, rfl⟩

/-- A string that goes on takes an edge. -/
theorem exists_edge_of_pending (order : SiblingOrder) {q : Pending} (hq : q ∈ strings)
    (hne : q.rest ≠ []) :
    ∃ e ∈ (Node.ofPending order strings).edges, ∃ p ∈ e.below,
      q.rest = e.label ++ p.rest ∧ q.index = p.index := by
  have hlive : q ∈ (runsOf strings).flatten := by
    rw [flatten_runsOf, List.mem_filter]
    simpa using ⟨hq, hne⟩
  obtain ⟨run, hrun, hqrun⟩ := List.mem_flatten.mp hlive
  obtain ⟨e, he, hlabel, hbelow⟩ : ∃ e ∈ (Node.ofPending order strings).edges,
      e.label = runLabel run ∧ e.below = runBelow run := exists_edge_of_run hrun
  refine ⟨e, he, { q with rest := q.rest.drop (runLabel run).length }, ?_, ?_, rfl⟩
  · rw [hbelow, runBelow]
    exact List.mem_map.mpr ⟨q, hqrun, rfl⟩
  · rw [hlabel]
    exact rest_eq_runLabel_append hqrun

/-- No two edges of a node start with one byte. -/
theorem edges_apart (order : SiblingOrder) (h : Ordered strings) :
    (Node.ofPending order strings).edges.Pairwise fun e e' => e.label.head? ≠ e'.label.head? := by
  have hruns : ((runsOf strings).map fun run => (runLabel run, runBelow run)).Pairwise
      fun r r' => r.1.head? ≠ r'.1.head? := by
    rw [List.pairwise_map]
    refine (runsOf_pairwise h).imp_of_mem ?_
    intro run other hrun hother hbefore
    obtain ⟨p, hp⟩ := List.exists_mem_of_ne_nil run (run_ne_nil hrun)
    obtain ⟨q, hq⟩ := List.exists_mem_of_ne_nil other (run_ne_nil hother)
    rw [head?_runLabel hrun hp, head?_runLabel hother hq]
    intro heq
    exact Nat.ne_of_lt (hbefore p hp q hq) (label_eq_iff.mpr heq)
  have hedges := (map_route_edges order strings).symm.pairwise hruns (fun hne => hne.symm)
  rw [List.pairwise_map] at hedges
  exact hedges

theorem edge_unique (h : Ordered strings) {j j' : Nat} {e e' : Edge}
    (hj : (Node.ofPending order strings).edges[j]? = some e)
    (hj' : (Node.ofPending order strings).edges[j']? = some e')
    (hhead : e.label.head? = e'.label.head?) : j = j' := by
  have hpairwise := List.pairwise_iff_getElem.mp (edges_apart order h)
  obtain ⟨hlt, rfl⟩ := List.getElem?_eq_some_iff.mp hj
  obtain ⟨hlt', rfl⟩ := List.getElem?_eq_some_iff.mp hj'
  rcases Nat.lt_trichotomy j j' with h | h | h
  · exact absurd hhead (hpairwise j j' hlt hlt' h)
  · exact h
  · exact absurd hhead.symm (hpairwise j' j hlt' hlt h)

/-- What goes on below an edge is in order again. -/
theorem ordered_below {e : Edge} (h : Ordered strings)
    (he : e ∈ (Node.ofPending order strings).edges) : Ordered e.below := by
  obtain ⟨run, hrun, _, hbelow⟩ := exists_run_of_edge he
  have hlive : Ordered (runsOf strings).flatten := by
    rw [flatten_runsOf]
    exact h.filter _
  have hordered : Ordered run := (List.pairwise_flatten.mp hlive).1 run hrun
  rw [hbelow, runBelow, Ordered, List.pairwise_map]
  refine hordered.imp_of_mem ?_
  intro p q hp hq hle
  rw [rest_eq_runLabel_append hp, rest_eq_runLabel_append hq, Sorting.bytesLe_append_left] at hle
  exact hle

/-! ## The bytes that are left -/

section

variable (f : Weight → Nat)

/-- What some strings count for, each by its weight. -/
def tally (strings : List Pending) : Nat :=
  (strings.map (f ·.weight)).sum

/-- What is left of some strings, each byte counting like its string. -/
def tallyLeft (strings : List Pending) : Nat :=
  (strings.map fun p => f p.weight * p.rest.length).sum

@[simp] theorem tally_runBelow (run : List Pending) : tally f (runBelow run) = tally f run := by
  rw [tally, runBelow, List.map_map]
  rfl

theorem tallyLeft_filter (strings : List Pending) :
    tallyLeft f (strings.filter (!·.rest.isEmpty)) = tallyLeft f strings := by
  induction strings with
  | nil => rfl
  | cons p strings ih =>
    rw [List.filter_cons]
    cases hrest : p.rest with
    | nil => simpa [hrest, tallyLeft] using ih
    | cons b rest => simpa [hrest, tallyLeft] using ih

theorem tallyLeft_flatten (runs : List (List Pending)) :
    tallyLeft f runs.flatten = (runs.map (tallyLeft f)).sum := by
  rw [tallyLeft, List.map_flatten, List.sum_flatten, List.map_map]
  rfl

/-- The label of a run is taken off each of its strings. -/
theorem tally_mul_add_runBelow (run : List Pending) :
    tally f run * (runLabel run).length + tallyLeft f (runBelow run) = tallyLeft f run := by
  have hrest : ∀ p ∈ run, f p.weight * (runLabel run).length
      + f p.weight * (p.rest.drop (runLabel run).length).length = f p.weight * p.rest.length := by
    intro p hp
    have hlength := congrArg List.length (rest_eq_runLabel_append hp)
    rw [List.length_append] at hlength
    rw [← Nat.mul_add, ← hlength]
  calc tally f run * (runLabel run).length + tallyLeft f (runBelow run)
      = (run.map fun p => f p.weight * (runLabel run).length).sum
        + (run.map fun p => f p.weight * (p.rest.drop (runLabel run).length).length).sum := by
        rw [List.sum_map_mul_right, tallyLeft, runBelow, List.map_map]
        rfl
    _ = tallyLeft f run := by rw [← List.sum_map_add, List.map_congr_left hrest, tallyLeft]

/-- The labels of a node, each for all strings that take it, and what is left below its edges are
what was left. -/
theorem tallyLeft_edges (order : SiblingOrder) (strings : List Pending) :
    ((Node.ofPending order strings).edges.map fun e =>
      tally f e.below * e.label.length + tallyLeft f e.below).sum = tallyLeft f strings := by
  have hperm := ((map_route_edges order strings).map fun r =>
    tally f r.2 * r.1.length + tallyLeft f r.2).sum_nat
  rw [List.map_map, List.map_map] at hperm
  calc ((Node.ofPending order strings).edges.map fun e =>
        tally f e.below * e.label.length + tallyLeft f e.below).sum
      = ((runsOf strings).map fun run => tally f (runBelow run) * (runLabel run).length
          + tallyLeft f (runBelow run)).sum := hperm
    _ = ((runsOf strings).map (tallyLeft f)).sum := by
        simp only [tally_runBelow, tally_mul_add_runBelow]
    _ = tallyLeft f strings := by
        rw [← tallyLeft_flatten, flatten_runsOf, tallyLeft_filter]

end

end Lexicon
