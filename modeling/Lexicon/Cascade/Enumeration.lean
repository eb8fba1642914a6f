/-
Lexicon.Cascade.Enumeration — the keys below a node, one after the other.

A `Tour` is a depth-first walk that can be put down and taken up again. It holds
the path from the node where it began to the node where it stands, and the frames
of the deeper layers that it has left: the nodes of a layer are numbered in the
order in which the walk meets them, so a frame that ran off one family of
children stands before the next family, and the numbers of links and keys go on
by one. `Moves.turn?` reads one bit, and a tour goes on turn by turn.
-/
import Lexicon.Cascade.Moves

namespace Lexicon

/-- Where a tour stands in one layer. -/
structure Frame where
  /-- The last node met in the layer, or the next one to meet. -/
  node : Nat
  /-- The position in `louds` of the next bit to read for the layer. -/
  position : Nat := 0
  /-- The bytes that lead to the node, once it is met. -/
  bytes : List UInt8 := []
  /-- The number of the last link met in the layer. -/
  link : Option Nat := none
  /-- The number of the last key met in the layer. -/
  key : Option Nat := none
  deriving DecidableEq, Repr

/-- A walk through the nodes below one node. -/
structure Tour where
  /-- The node where the walk stands. -/
  here : Frame
  /-- The nodes above it, the nearest first. -/
  above : List Frame := []
  /-- The layers below it that the walk has been in, the nearest first. -/
  ahead : List Frame := []
  deriving DecidableEq, Repr

namespace Tour

/-- The tour that begins at a node, which the given bytes lead to. -/
def start (node : Nat) (bytes : List UInt8) : Tour :=
  { here := { node, bytes } }

/-- The next key that a tour reports, or its end. -/
inductive Event
  /-- A key, its bytes being those of the node where the tour now stands. -/
  | key (id : Nat) (tour : Tour)
  /-- The end; the tour is back at the node where it began. -/
  | finished (bytes : List UInt8)
  deriving DecidableEq, Repr

/-- What a tour comes to when it reads one bit. -/
inductive Turn
  | stop (event : Event)
  | on (tour : Tour)
  deriving DecidableEq, Repr

end Tour

namespace Moves

/-- The frame that is read next, and the frames ahead of it. -/
def nextFrame? (m : Moves) (tour : Tour) : Option (Frame × List Frame) :=
  match tour.ahead with
  | frame :: ahead => some (frame, ahead)
  | [] => (m.children? tour.here.node).map fun (node, position) => ({ node, position }, [])

/-- Reads a frame: meets a child, or goes up from a node that has no more of them. -/
def readFrame? (m : Moves) (tour : Tour) (frame : Frame) (ahead : List Frame) :
    Option Tour.Turn := do
  let advanced := { frame with position := frame.position + 1 }
  if (← m.isChild? frame.node frame.position) then
    let (label, link) ← m.label? frame.link frame.node
    let met := { advanced with bytes := tour.here.bytes ++ label, link }
    let above := tour.here :: tour.above
    match (← m.nextKey? frame.key frame.node) with
    | some id => some (.stop (.key id { here := { met with key := some id }, above, ahead }))
    | none => some (.on { here := met, above, ahead })
  else
    match tour.above with
    | [] => some (.stop (.finished tour.here.bytes))
    | parent :: above =>
      let left := { tour.here with node := tour.here.node + 1 }
      some (.on { here := parent, above, ahead := left :: advanced :: ahead })

/-- Goes on with a tour by one bit. -/
def turn? (m : Moves) (tour : Tour) : Option Tour.Turn := do
  let (frame, ahead) ← m.nextFrame? tour
  m.readFrame? tour frame ahead

/-- Goes on with a tour until it meets a key or ends; `fuel` bounds the bits that are read. -/
def resumeWithin? (m : Moves) : (fuel : Nat) → Tour → Option Tour.Event
  | 0, _ => none
  | fuel + 1, tour => do
    match (← m.turn? tour) with
    | .stop event => some event
    | .on tour => resumeWithin? m fuel tour

/-- Goes on with a tour until it meets a key or ends. -/
def resume? (m : Moves) (tour : Tour) : Option Tour.Event :=
  m.resumeWithin? m.fuel tour

/-- The first key at or below a node, which the given bytes lead to. -/
def beginTour? (m : Moves) (node : Nat) (bytes : List UInt8) : Option Tour.Event := do
  match (← m.keyAt? node) with
  | some id => some (.key id (.start node bytes))
  | none => m.resume? (.start node bytes)

end Moves

end Lexicon
