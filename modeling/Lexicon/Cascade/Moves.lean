/-
Lexicon.Cascade.Moves — what searches ask of the levels, and the walks made of it.

`Moves` lists everything that a search asks of the levels of a dictionary. The walks
are made of these moves and of nothing else: the exact search, the search for the
keys that are prefixes of the query, the start of the search for the keys that
extend it, and the way from a node back to the root. Only the third copies labels,
for it alone may end inside one. `Cascade.moves` are the moves of a dictionary;
`Cascade.auditedMoves` are the same, but give no answer once a number in use is not
the rank of its place.
-/
import Lexicon.Cascade.Descent

namespace Lexicon

/-- What a search asks of the levels. -/
structure Moves where
  /-- The number of keys. -/
  numKeys : Nat
  /-- More than the bits that one search can read on its way to the next key. -/
  fuel : Nat
  /-- The id of the key that ends at a node, if one does. -/
  keyAt? : (node : Nat) → Option (Option Nat)
  /-- Leaves a node along a query that has bytes left. -/
  step? : (copies : Bool) → (node : Nat) → (query : List UInt8) → Option Step
  /-- The first child of a node, or the node where it would be, and the position of its bit. -/
  children? : (node : Nat) → Option (Nat × Nat)
  /-- Whether the bit at a position stands for a child, which is then the given node. -/
  isChild? : (node position : Nat) → Option Bool
  /-- The label of the edge into a node, and the number of the last link up to there, given that of
  the last one before. -/
  label? : (lastLink : Option Nat) → (node : Nat) → Option (List UInt8 × Option Nat)
  /-- The id of the key that ends at a node, if one does, given that of the last one before. -/
  nextKey? : (lastKey : Option Nat) → (node : Nat) → Option (Option Nat)
  /-- The node where the key with an id ends. -/
  nodeOf? : (id : Nat) → Option Nat
  /-- The label of the edge into a node, and the node above it unless that is the root. -/
  ascend? : (node : Nat) → Option (List UInt8 × Option Nat)

/-! ## Walks -/

namespace Moves

/-- The id of the key that is a query, of which the given bytes are left at a node. -/
def lookupFrom? (m : Moves) (node : Nat) : List UInt8 → Option (Option Nat)
  | [] => m.keyAt? node
  | b :: rest => do
    let step ← m.step? false node (b :: rest)
    if step.fits then
      if _h : 0 < step.used then lookupFrom? m step.node ((b :: rest).drop step.used) else none
    else
      some none
termination_by query => query.length
decreasing_by simp only [List.length_drop, List.length_cons]; omega

/-- The id of the key that is the query. -/
def lookup? (m : Moves) (query : List UInt8) : Option (Option Nat) :=
  m.lookupFrom? 0 query

/-- A key that is a prefix of a query: where it ends and which it is. -/
structure PrefixHit where
  node : Nat
  length : Nat
  id : Nat
  deriving DecidableEq, Repr

/-- The next key on the way from a node, which the first `length` bytes of a query reach, along the
bytes that are left. -/
def nextPrefix? (m : Moves) (node length : Nat) : List UInt8 → Option (Option PrefixHit)
  | [] => some none
  | b :: rest => do
    let step ← m.step? false node (b :: rest)
    if step.fits then
      if _h : 0 < step.used then
        match (← m.keyAt? step.node) with
        | some id => some (some ⟨step.node, length + step.used, id⟩)
        | none => nextPrefix? m step.node (length + step.used) ((b :: rest).drop step.used)
      else
        none
    else
      some none
termination_by query => query.length
decreasing_by simp only [List.length_drop, List.length_cons]; omega

/-- Where the keys that start with a query are. -/
inductive Place
  /-- At and below a node, which the given bytes lead to. -/
  | found (node : Nat) (bytes : List UInt8)
  /-- Nowhere; the given bytes are those of the way that was tried. -/
  | lost (bytes : List UInt8)
  deriving DecidableEq, Repr

/-- Where the keys are that start with a query, of which the given bytes are left at a node that
other bytes lead to. -/
def locateFrom? (m : Moves) (bytes : List UInt8) (node : Nat) : List UInt8 → Option Place
  | [] => some (.found node bytes)
  | b :: rest => do
    let step ← m.step? true node (b :: rest)
    if step.fits then
      if _h : 0 < step.used then
        locateFrom? m (bytes ++ step.copied) step.node ((b :: rest).drop step.used)
      else
        none
    else
      some (.lost (bytes ++ step.copied))
termination_by query => query.length
decreasing_by simp only [List.length_drop, List.length_cons]; omega

/-- Where the keys are that start with a query. -/
def locate? (m : Moves) (query : List UInt8) : Option Place :=
  m.locateFrom? [] 0 query

/-- The bytes that lead from the root to a node below it, in front of the given ones. -/
def spellFrom? (m : Moves) (node : Nat) (bytes : List UInt8) : Option (List UInt8) := do
  let (label, above) ← m.ascend? node
  match above with
  | none => some (label ++ bytes)
  | some parent => if parent < node then spellFrom? m parent (label ++ bytes) else none
termination_by node

/-- The bytes that lead from the root to a node. -/
def spell? (m : Moves) (node : Nat) : Option (List UInt8) :=
  if node = 0 then some [] else m.spellFrom? node []

/-- The key with the given id, for an id below the number of keys. -/
def keyOf? (m : Moves) (id : Nat) : Option (List UInt8) := do
  m.spell? (← m.nodeOf? id)

end Moves

/-! ## The moves of a dictionary -/

namespace Cascade

/-- Whether the bit at a position stands for a child, if the number in use for the position can be
used. -/
def isChild? (c : Cascade) (check : Check) (node position : Nat) : Option Bool := do
  let _ ← check c.top.louds position node
  c.top.louds.get? position

/-- The label of the edge into a node, and the number of the last link up to there. -/
def label? (c : Cascade) (check : Check) (lastLink : Option Nat) (node : Nat) :
    Option (List UInt8 × Option Nat) := do
  if (← c.top.links.get? node) then
    let kept ← nextNumber lastLink (c.top.links.rank1? node)
    let number ← check c.top.links node kept
    let label ← c.restoreLink? (← c.top.linkTarget? node number)
    some (label, some number)
  else
    let base ← c.top.bases[node]?
    some ([base], lastLink)

/-- The id of the key that ends at a node, if one does. -/
def nextKey? (c : Cascade) (check : Check) (lastKey : Option Nat) (node : Nat) :
    Option (Option Nat) := do
  if (← c.top.terminals.get? node) then
    let kept ← nextNumber lastKey (c.top.terminals.rank1? node)
    (check c.top.terminals node kept).map some
  else
    some none

/-- The label of the edge into a node, and the node above it unless that is the root. -/
def ascend? (c : Cascade) (node : Nat) : Option (List UInt8 × Option Nat) := do
  let label ← match (← c.top.piece? node) with
    | .byte b => some [b]
    | .link target => c.restoreLink? target
  if node ≤ c.top.rootDegree then some (label, none)
  else some (label, some (← c.top.parent? node))

/-- The moves of a dictionary, the numbers in use being checked. -/
def checkedMoves (check : Check) (c : Cascade) : Moves where
  numKeys := c.numKeys
  fuel := c.top.louds.size + 1
  keyAt? := c.top.keyAt?
  step? := c.step? check
  children? node := (c.top.louds.select0? node).map fun position => (position - node, position + 1)
  isChild? := c.isChild? check
  label? := c.label? check
  nextKey? := c.nextKey? check
  nodeOf? := c.top.terminals.select1?
  ascend? := c.ascend?

/-- The moves of a dictionary. -/
def moves (c : Cascade) : Moves :=
  c.checkedMoves .trust

/-- The moves of a dictionary, which give no answer once a number in use is not a rank. -/
def auditedMoves (c : Cascade) : Moves :=
  c.checkedMoves .recount

end Cascade

end Lexicon
