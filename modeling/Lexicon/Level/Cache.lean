/-
Lexicon.Level.Cache — remembering the heaviest edges.

A level keeps a table of slots. An edge belongs to one slot: on the first level
by the node it leaves and its first byte, deeper down by the node it enters.
While a level is built a slot holds the heaviest edge offered so far; when it is
finished the weight gives way to what the edge spells.
-/
import Lexicon.Weight

namespace Lexicon

/-- What an edge spells: one byte, or the string that a link stands for. -/
inductive Piece
  | byte (b : UInt8)
  | link (target : Nat)
  deriving DecidableEq, Repr

namespace Piece

/-- Whether the piece is a link. -/
def isLink : Piece → Bool
  | byte _ => false
  | link _ => true

/-- The byte, or the low byte of the link's target. -/
def base : Piece → UInt8
  | byte b => b
  | link target => target.toUInt8

/-- What is left of a link's target without its low byte. -/
def extra? : Piece → Option UInt32
  | byte _ => none
  | link target => some (target / 256).toUInt32

end Piece

/-- A slot of a cache. -/
structure Slot where
  parent : UInt32
  child : UInt32
  /-- The weight of the edge while the level is built, then what the edge spells. -/
  link : UInt32
  deriving DecidableEq, Inhabited, Repr

namespace Slot

/-- The slot before any edge is offered; only a weight above the least normal one gets in. -/
def fresh : Slot := ⟨0, 0, Weight.minNormal.bits⟩

/-- The weight of the remembered edge, while the level is built. -/
def weight (s : Slot) : Weight := ⟨s.link⟩

/-- The slot after an edge was offered: the heavier edge stays, of equal ones the earlier. -/
def offer (s : Slot) (parent child : Nat) (weight : Weight) : Slot :=
  if weight.exceeds s.weight then ⟨parent.toUInt32, child.toUInt32, weight.bits⟩ else s

/-- The slot without an edge. -/
def cleared (s : Slot) : Slot :=
  { s with parent := 0xFFFFFFFF, child := 0xFFFFFFFF }

/-- The word that stands for a piece: a link's target, or a byte below a mark that no target has. -/
def pieceWord : Piece → UInt32
  | .byte b => 0xFFFFFF00 ||| b.toUInt32
  | .link target => target.toUInt32

/-- What the remembered edge spells. -/
def piece (s : Slot) : Piece :=
  if s.link >>> 8 = 0xFFFFFF then .byte s.link.toUInt8 else .link s.link.toNat

/-- The slot of a finished level, given what each edge spells by the node it enters. -/
def finish (pieceOf : Nat → Option Piece) (s : Slot) : Slot :=
  if s.child = 0 then s.cleared
  else match pieceOf s.child.toNat with
    | some piece => { s with link := pieceWord piece }
    | none => s.cleared

end Slot

namespace Cache

/-- The least product of `size` and a power of two that reaches `wanted`. -/
def doubled (size wanted : Nat) : Nat :=
  if 0 < size ∧ size < wanted then doubled (2 * size) wanted else size
termination_by wanted - size

/-- The slot of an edge on the first level. -/
def edgeSlot (slots parent : Nat) (label : UInt8) : Nat :=
  (parent ^^^ (parent <<< 5) ^^^ label.toNat) % slots

/-- The slot of an edge on a deeper level. -/
def nodeSlot (slots child : Nat) : Nat :=
  child % slots

end Cache

end Lexicon
