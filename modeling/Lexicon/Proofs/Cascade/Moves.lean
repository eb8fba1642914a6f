/-
Lexicon.Proofs.Cascade.Moves — moves that follow the tree of the keys.

`Moves.Follow` says what each of the moves does in the tree of a shape. All that is known of the
searches comes from there, so it does not matter where a cascade keeps a label, whether it
remembers an edge, or whether it checks the numbers in use: the moves of a cascade that tells a tree
follow it, checked or not (`Cascade.Tells.follow_checkedMoves`).
-/
import Lexicon.Cascade.Moves
import Lexicon.Proofs.Cascade.Steps

namespace Lexicon

/-! ## Keys in the tree -/

namespace Shape

variable {s : Shape}

/-- The id of the key that ends at a node, if one does. -/
def keyAt (s : Shape) (v : Nat) : Option Nat :=
  if s.terminalBits[v]? = some true then some (Level.keyNumber s v) else none

/-- A string is the key with the given id. -/
def Keyed (s : Shape) (word : List UInt8) (id : Nat) : Prop :=
  ∃ x, s.Spells x word ∧ s.keyAt x = some id

theorem keyAt_eq_some_iff {v id : Nat} :
    s.keyAt v = some id ↔ SelectsAt true s.terminalBits id v := by
  unfold keyAt
  constructor
  · intro h
    split at h
    · rename_i hbit
      exact ⟨hbit, Option.some.inj h⟩
    · cases h
  · intro h
    rw [if_pos h.bit]
    exact congrArg some h.count

theorem keyNumber_succ (v : Nat) (hv : v < s.nodes.length) :
    Level.keyNumber s (v + 1) = Level.keyNumber s v + if (s.keyAt v).isSome then 1 else 0 := by
  have hlength := Level.length_terminalBits s
  have hbit := List.getElem?_eq_getElem (show v < s.terminalBits.length by omega)
  unfold Level.keyNumber keyAt
  rw [countBefore_succ hbit, hbit]
  cases s.terminalBits[v] <;> rfl

theorem not_keyed {word : List UInt8} (h : ∀ x, ¬s.Spells x word) (id : Nat) :
    ¬s.Keyed word id := by
  rintro ⟨x, hx, _⟩
  exact h x hx

/-- A key has one id. -/
theorem Keyed.unique (h : s.Sound) {word : List UInt8} {id id' : Nat} (hid : s.Keyed word id)
    (hid' : s.Keyed word id') : id = id' := by
  obtain ⟨x, hx, hat⟩ := hid
  obtain ⟨x', hx', hat'⟩ := hid'
  obtain rfl := h.eq_of_spells hx hx'
  rw [hat] at hat'
  exact Option.some.inj hat'

/-- An id belongs to one key. -/
theorem Keyed.injective {word word' : List UInt8} {id : Nat} (hid : s.Keyed word id)
    (hid' : s.Keyed word' id) : word = word' := by
  obtain ⟨x, hx, hat⟩ := hid
  obtain ⟨x', hx', hat'⟩ := hid'
  obtain rfl := (keyAt_eq_some_iff.mp hat).unique (keyAt_eq_some_iff.mp hat')
  exact hx.unique hx'

end Shape

/-! ## Moves in the tree -/

/-- The moves do what the tree of a shape says: they find the keys where they end, leave a node by
its edges, list its children in order, and number the links and the keys of a layer one after the
other. Where a number is kept, it has to be that of the last link or key before the node. -/
structure Moves.Follow (m : Moves) (s : Shape) : Prop where
  sound : s.Sound
  numKeys : m.numKeys = s.terminalBits.count true
  fuel : m.fuel = 2 * s.nodes.length + 3
  keyAt? : ∀ {v : Nat}, v < s.nodes.length → m.keyAt? v = some (s.keyAt v)
  step? : ∀ {copies : Bool} {u : Nat} {query : List UInt8}, u < s.nodes.length → query ≠ [] →
    ∃ step, m.step? copies u query = some step ∧ s.Leaves copies u query step
  children? : ∀ {u : Nat}, u < s.nodes.length →
    m.children? u = some (s.firstChild u, s.start u)
  isChild? : ∀ {u j : Nat}, u < s.nodes.length → j ≤ s.degree u →
    m.isChild? (s.firstChild u + j) (s.start u + j) = some (decide (j < s.degree u))
  label? : ∀ {u v : Nat} {e : Edge} {last : Option Nat}, s.Enters u e v →
    (∀ number, last = some number → number + 1 = Level.linkNumber s v) →
    m.label? last v = some (e.label, if e.isLink then some (Level.linkNumber s v) else last)
  nextKey? : ∀ {v : Nat} {last : Option Nat}, v < s.nodes.length →
    (∀ number, last = some number → number + 1 = Level.keyNumber s v) →
    m.nextKey? last v = some (s.keyAt v)
  nodeOf? : ∀ {v id : Nat}, s.keyAt v = some id → m.nodeOf? id = some v
  ascend? : ∀ {u v : Nat} {e : Edge}, s.Enters u e v →
    m.ascend? v = some (e.label, if u = 0 then none else some u)

/-! ## Steps in the tree -/

namespace Shape

variable {s : Shape} {copies : Bool} {u : Nat} {query : List UInt8}

/-- Every node is left along a query in some way. -/
theorem exists_leaves (s : Shape) (copies : Bool) (u : Nat) (query : List UInt8) :
    ∃ step, s.Leaves copies u query step := by
  by_cases hedge : ∃ v e, s.Enters u e v ∧ e.label.head? = query.head?
  · obtain ⟨v, e, he, hhead⟩ := hedge
    exact ⟨⟨_, v⟩, .along he hhead rfl fun _ => rfl⟩
  · exact ⟨⟨.apart, u⟩, .stuck fun v e he hhead => hedge ⟨v, e, he, hhead⟩⟩

/-- A node is left along a query in one way, but for where a search stays if it is not left. -/
theorem Leaves.unique (hsound : s.Sound) {step step' : Step} (h : s.Leaves copies u query step)
    (h' : s.Leaves copies u query step') : step'.toAgreement = step.toAgreement
      ∧ (step.fits = true → step'.node = step.node) := by
  cases h with
  | @along v e step he hhead hbetween hnode =>
    cases h' with
    | @along v' e' step' he' hhead' hbetween' hnode' =>
      obtain rfl := hsound.apart he he' (hhead.trans hhead'.symm)
      obtain ⟨_, rfl⟩ := he.unique he'
      have hsame := hbetween'.trans hbetween.symm
      refine ⟨hsame, fun hfits => ?_⟩
      rw [hnode hfits, hnode' (by rw [hsame]; exact hfits)]
    | stuck hnone => exact absurd hhead (hnone v e he)
  | stuck hnone =>
    cases h' with
    | @along v e _ he hhead _ _ => exact absurd hhead (hnone v e he)
    | stuck _ => exact ⟨rfl, nofun⟩

/-- Whatever follows the tree agrees with a query so far when it leaves a node, and gets to `v` if
it succeeds. -/
def Steps (s : Shape) (copies : Bool) (u : Nat) (query : List UInt8) (agreement : Agreement)
    (v : Nat) : Prop :=
  ∀ m : Moves, m.Follow s → ∃ node, m.step? copies u query = some ⟨agreement, node⟩
    ∧ (agreement.fits = true → node = v)

theorem Leaves.steps {step : Step} (h : s.Leaves copies u query step) (hu : u < s.nodes.length)
    (hquery : query ≠ []) : s.Steps copies u query step.toAgreement step.node := by
  intro m hm
  obtain ⟨step', hstep', hleaves⟩ := hm.step? hu hquery
  obtain ⟨hsame, hnode⟩ := h.unique hm.sound hleaves
  refine ⟨step'.node, ?_, hnode⟩
  rw [hstep', ← hsame]

end Shape

/-! ## The moves of a cascade -/

namespace Cascade

variable {c : Cascade} {s : Shape} {check : Check}

theorem numKeys_eq (h : c.Tells s) : c.numKeys = s.terminalBits.count true :=
  h.tops.terminals_ones

namespace Tells

theorem keyAt? (h : c.Tells s) {v : Nat} (hv : v < s.nodes.length) :
    c.top.keyAt? v = some (s.keyAt v) := by
  have hlength := Level.length_terminalBits s
  have hbit := List.getElem?_eq_getElem (show v < s.terminalBits.length by omega)
  unfold Level.keyAt? Shape.keyAt
  rw [h.tops.terminals_get?, h.tops.terminals_rank1? (Nat.le_of_lt hv), hbit]
  cases s.terminalBits[v] <;> simp

theorem louds_get? (h : c.Tells s) {u j : Nat} (hu : u < s.nodes.length) (hj : j ≤ s.degree u) :
    c.top.louds.get? (s.start u + j) = some (decide (j < s.degree u)) := by
  rcases Nat.lt_or_eq_of_le hj with hlt | rfl
  · rw [(h.lays.louds_bit (Shape.loudsBits_child hlt)).2, decide_eq_true hlt]
  · rw [(h.lays.louds_bit (Shape.loudsBits_stop hu)).2, decide_eq_false (Nat.lt_irrefl _)]

theorem label? (h : c.Tells s) (hcheck : check.Accepts) {u v : Nat} {e : Edge} {last : Option Nat}
    (he : s.Enters u e v)
    (hlast : ∀ number, last = some number → number + 1 = Level.linkNumber s v) :
    c.label? check last v
      = some (e.label, if e.isLink then some (Level.linkNumber s v) else last) := by
  have hrank := h.lays.links_rank1? he
  unfold Cascade.label?
  rw [h.lays.links_get? he]
  cases hlink : e.isLink with
  | true =>
    obtain ⟨target, htarget, hresolves⟩ := h.lays.linkTarget? he hlink
    have hrestore : c.restoreLink? target = some e.label := hresolves.restore
    simp [hrank, nextNumber_eq hlast, hcheck hrank, htarget, hrestore]
  | false =>
    obtain ⟨b, hbase, hlabel⟩ := h.lays.bases_getElem? he hlink
    simp [hbase, hlabel]

theorem nextKey? (h : c.Tells s) (hcheck : check.Accepts) {v : Nat} {last : Option Nat}
    (hv : v < s.nodes.length)
    (hlast : ∀ number, last = some number → number + 1 = Level.keyNumber s v) :
    c.nextKey? check last v = some (s.keyAt v) := by
  have hlength := Level.length_terminalBits s
  have hbit := List.getElem?_eq_getElem (show v < s.terminalBits.length by omega)
  have hrank := h.tops.terminals_rank1? (Nat.le_of_lt hv)
  unfold Cascade.nextKey? Shape.keyAt
  rw [h.tops.terminals_get?, hbit, hrank, nextNumber_eq hlast]
  cases s.terminalBits[v] <;> simp [hcheck hrank]

/-- The string of a link of the first level, or the byte that an edge is. -/
theorem restorePiece? {piece : Piece} {string : List UInt8}
    (h : piece.Spells (Resolves c.top.tail c.deeper) string) :
    Level.restorePiece? c.restoreLink? piece = some string :=
  Level.restorePiece?_of_spells (fun _ _ hresolves => hresolves.restore) h

theorem ascend?_eq {v : Nat} {piece : Piece} {label : List UInt8}
    (hpiece : c.top.piece? v = some piece)
    (hlabel : Level.restorePiece? c.restoreLink? piece = some label) :
    c.ascend? v = if v ≤ c.top.rootDegree then some (label, none)
      else (c.top.parent? v).map fun u => (label, some u) := by
  rw [Cascade.ascend?, hpiece]
  cases piece with
  | byte b =>
    obtain rfl : [b] = label := Option.some.inj hlabel
    cases c.top.parent? v <;> rfl
  | link target =>
    have hrestore : c.restoreLink? target = some label := hlabel
    cases c.top.parent? v <;> simp [hrestore]

theorem ascend? (h : c.Tells s) {u v : Nat} {e : Edge} (he : s.Enters u e v) :
    c.ascend? v = some (e.label, if u = 0 then none else some u) := by
  obtain ⟨piece, hpiece, hspells⟩ := h.lays.piece? he
  have hroot := h.lays.le_rootDegree_iff he
  rw [ascend?_eq hpiece (restorePiece? hspells), h.lays.parent? he]
  by_cases hu : u = 0
  · rw [if_pos (hroot.mpr hu), if_pos hu]
    rfl
  · rw [if_neg (mt hroot.mp hu), if_neg hu]
    rfl

/-- The moves of a cascade that tells a tree follow it, whether or not the numbers in use are
checked; only of the nodes that the bits of the tree stand for is it left open here that they are
ranks. -/
theorem follow_checkedMoves (h : c.Tells s) (hcheck : check.Accepts)
    (hlouds : ∀ {u j : Nat}, u < s.nodes.length → j ≤ s.degree u →
      check c.top.louds (s.start u + j) (s.firstChild u + j) = some (s.firstChild u + j)) :
    (c.checkedMoves check).Follow s where
  sound := h.lays.sound
  numKeys := numKeys_eq h
  fuel := congrArg (· + 1) h.lays.size_louds
  keyAt? := h.keyAt?
  step? := fun hu hquery => step?_spec h hcheck hu hquery
  children? := by
    intro u hu
    show (c.top.louds.select0? u).map _ = _
    rw [h.tops.select0? hu, Option.map_some, Nat.add_sub_cancel]
    rfl
  isChild? := by
    intro u j hu hj
    show c.isChild? check _ _ = _
    rw [Cascade.isChild?, hlouds hu hj]
    exact h.louds_get? hu hj
  label? := h.label? hcheck
  nextKey? := h.nextKey? hcheck
  nodeOf? := fun hid => h.tops.terminals_select1? (Shape.keyAt_eq_some_iff.mp hid)
  ascend? := h.ascend?

theorem follow (h : c.Tells s) : c.moves.Follow s :=
  h.follow_checkedMoves Check.accepts_trust fun _ _ => rfl

end Tells

end Cascade

end Lexicon
