/-
Lexicon.Cascade.Descent — leaving a node of the first level.

`Cascade.step?` leaves a node by the edge that fits the rest of a query: at once if
the cache remembers it, else by trying the siblings in turn. At most one sibling
starts with the next byte, so a sibling that agrees in part rules out the others.
The links among the siblings are numbered one after the other; a `Check` sees every
number that is in use.
-/
import Lexicon.Cascade.Links

namespace Lexicon

/-! ## Numbers that are kept -/

/-- The number after the last one given out, or else the one counted from scratch. -/
def nextNumber (last : Option Nat) (counted : Option Nat) : Option Nat :=
  match last with
  | some n => some (n + 1)
  | none => counted

/-- What is made of the number in use for a place in a vector: the number to go on with, or an end
of the search. -/
def Check :=
  BitVector → (place number : Nat) → Option Nat

namespace Check

/-- Every number is used as it is. -/
def trust : Check :=
  fun _ _ number => some number

/-- A number is used if it is the number of ones before the place. -/
def recount : Check :=
  fun v place number => if v.rank1? place = some number then some number else none

end Check

/-! ## Steps -/

/-- A try to leave a node along a query: how far the query agrees with an edge, and at which node
that leaves the search. -/
structure Step extends Agreement where
  /-- The node below the edge if the try succeeds, else the last one tried. -/
  node : Nat
  deriving DecidableEq, Repr

namespace Cascade

/-- Tries the edges from the one into `node` on, whose bit in `louds` is at `position`.

`lastLink` is the number of the last link tried. -/
def scan? (c : Cascade) (check : Check) (copies : Bool) (query : List UInt8) (position node : Nat)
    (lastLink : Option Nat) : Option Step := do
  if position < c.top.louds.size then
    if (← c.top.louds.get? position) then
      if (← c.top.links.get? node) then
        let kept ← nextNumber lastLink (c.top.links.rank1? node)
        let number ← check c.top.links node kept
        let agreement ← c.followLink? copies (← c.top.linkTarget? node number) query
        if agreement.fits || 0 < agreement.used then some ⟨agreement, node⟩
        else scan? c check copies query (position + 1) (node + 1) (some number)
      else
        let base ← c.top.bases[node]?
        if query.head? = some base then some ⟨.passed copies [base], node⟩
        else scan? c check copies query (position + 1) (node + 1) lastLink
    else
      some ⟨.apart, node⟩
  else
    none
termination_by c.top.louds.size - position

/-- Leaves a node along a query that has bytes left. -/
def step? (c : Cascade) (check : Check) (copies : Bool) (node : Nat) : List UInt8 → Option Step
  | [] => none
  | b :: rest => do
    let slot ← c.top.cache[Cache.edgeSlot c.top.cache.size node b]?
    if slot.parent.toNat = node then
      match slot.piece with
      | .byte label => some ⟨.passed copies [label], slot.child.toNat⟩
      | .link target =>
        let agreement ← c.followLink? copies target (b :: rest)
        some ⟨agreement, if agreement.fits then slot.child.toNat else node⟩
    else
      let position ← c.top.louds.select0? node
      -- Without children nothing is tried, and the search stays where it is.
      if (← c.top.louds.get? (position + 1)) then
        c.scan? check copies (b :: rest) (position + 1) (position - node) none
      else
        some ⟨.apart, node⟩

end Cascade

end Lexicon
