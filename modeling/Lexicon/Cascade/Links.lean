/-
Lexicon.Cascade.Links — the strings that links stand for.

A target on the next level is a node there, and the string is spelled by the
edges from that node up to the root. A target below the last level is a position
in its tail. `Cascade.restoreLink?` gives the whole string; `followLink?` compares
it with the rest of a query, copying it or not, and reads no further than it must.

A climb answers only if every node it reads is there and each parent lies before
its child, so an answer also says that the walk stayed inside the level.
-/
import Lexicon.Cascade.Basic

namespace Lexicon

namespace Level

/-- What the edge into node `v > 0` spells, and the node that it leaves, 0 for the root.

A cache slot that remembers the edge answers at once. -/
def climb? (l : Level) (v : Nat) : Option (Piece × Nat) := do
  let slot ← l.cache[Cache.nodeSlot l.cache.size v]?
  if slot.child.toNat = v then
    some (slot.piece, slot.parent.toNat)
  else
    let piece ← l.piece? v
    if v ≤ l.rootDegree then some (piece, 0) else some (piece, ← l.parent? v)

/-- The string spelled from node `v > 0` up to the root, given the strings of the links. -/
def restoreUp? (l : Level) (restore : Nat → Option (List UInt8)) (v : Nat) :
    Option (List UInt8) := do
  let (piece, parent) ← l.climb? v
  let string ← match piece with
    | .byte b => some [b]
    | .link target => restore target
  if parent = 0 then
    some string
  else if parent < v then
    (restoreUp? l restore parent).map (string ++ ·)
  else
    none
termination_by v

/-- How far the string spelled from node `v > 0` up to the root agrees with the rest of a query,
given how the strings of the links do. -/
def followUp? (l : Level) (copies : Bool) (restore : Nat → Option (List UInt8))
    (follow : Nat → List UInt8 → Option Agreement) (v : Nat) (query : List UInt8) :
    Option Agreement := do
  let (piece, parent) ← l.climb? v
  let first ← match piece with
    | .byte b =>
      match query with
      | [] => none
      | c :: _ => some (if b = c then .passed copies [b] else .apart)
    | .link target => follow target query
  if first.fits then
    if parent = 0 then
      some first
    else if parent < v then
      let rest := query.drop first.used
      if rest.isEmpty then
        if copies then (l.restoreUp? restore parent).map first.complete else some first.fail
      else
        (followUp? l copies restore follow parent rest).map first.before
    else
      none
  else
    some first
termination_by v

end Level

namespace Cascade

/-- The string of a target below a level with the given tail and the given levels below it. -/
def restoreTarget? (tail : Tail) : List Level → Nat → Option (List UInt8)
  | [], target => tail.restore? target
  | level :: deeper, target => level.restoreUp? (restoreTarget? level.tail deeper) target

/-- How far the string of a target agrees with the rest of a query. -/
def followTarget? (copies : Bool) (tail : Tail) : List Level → Nat → List UInt8 → Option Agreement
  | [], target, query => tail.follow? copies target query
  | level :: deeper, target, query =>
    level.followUp? copies (restoreTarget? level.tail deeper)
      (followTarget? copies level.tail deeper) target query

/-- The string of a link of the first level. -/
def restoreLink? (c : Cascade) (target : Nat) : Option (List UInt8) :=
  restoreTarget? c.top.tail c.deeper target

/-- How far the string of a link of the first level agrees with the rest of a query. -/
def followLink? (c : Cascade) (copies : Bool) (target : Nat) (query : List UInt8) :
    Option Agreement :=
  followTarget? copies c.top.tail c.deeper target query

end Cascade

end Lexicon
