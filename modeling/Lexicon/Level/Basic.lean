/-
Lexicon.Level.Basic — one level of a dictionary.

A level is a tree whose nodes are numbered layer by layer. `louds` spells the
tree; for the node `v > 0`, `bases` and `links` say what the edge into `v`
spells: a single byte, or a link whose target is the base and 256 times the
link's entry in `extras`. The first level marks in `terminals` the nodes where
keys end. `Level.ofShape` lays a shape out; `piece?` and `parent?` read a level
node by node.
-/
import Lexicon.Bits.PackedVector
import Lexicon.Level.Cache
import Lexicon.Level.Shape
import Lexicon.Tail.Basic

namespace Lexicon

/-- One level of a dictionary. -/
structure Level where
  louds : BitVector
  terminals : BitVector
  links : BitVector
  bases : Array UInt8
  extras : PackedVector
  /-- The strings of the links, on the last level. -/
  tail : Tail
  cache : Array Slot
  /-- The number of children of the root; they are the nodes 1 … `rootDegree`. -/
  rootDegree : Nat
  config : Config
  deriving DecidableEq, Repr

namespace Level

/-- The number of nodes; the root counts. -/
def numNodes (l : Level) : Nat :=
  l.louds.size / 2 - 1

/-! ## Laying out a shape -/

/-- What each edge spells, given the targets of the links in order; `done` is in reverse. -/
def piecesOf : List Edge → List Nat → (done : List Piece) → List Piece
  | [], _, done => done.reverse
  | e :: edges, targets, done =>
    if e.isLink then piecesOf edges targets.tail (.link (targets.headD 0) :: done)
    else piecesOf edges targets (.byte (e.label.headD 0) :: done)

/-- The slot of an edge of a level that reads in the given direction. -/
def slotOf (reading : Reading) (slots parent child : Nat) (e : Edge) : Nat :=
  match reading with
  | .forward => Cache.edgeSlot slots parent (e.label.headD 0)
  | .backward => Cache.nodeSlot slots child

/-- The number of cache slots for so many different strings. -/
def slotCount (reading : Reading) (size : CacheSize) (distinct : Nat) : Nat :=
  Cache.doubled (match reading with | .forward => 256 | .backward => 1) (distinct / size.divisor)

/-- The cache of the edges of a shape. -/
def cacheOf (reading : Reading) (size : CacheSize) (shape : Shape) (pieces : List Piece) :
    Array Slot :=
  let slots := slotCount reading size shape.distinct
  let offered := shape.edges.zipIdx.foldl
    (fun cache ((parent, e), i) =>
      cache.modify (slotOf reading slots parent (i + 1) e) (·.offer parent (i + 1) e.weight))
    (Array.replicate slots Slot.fresh)
  let pieceArray := pieces.toArray
  (offered.toList.map (Slot.finish fun child => pieceArray[child - 1]?)).toArray

/-- The level of a shape, given the targets of its links and the tail that holds them, if any.

The level that reads forward is the first one: it alone needs to know where
keys end and where the children of a node start. -/
def ofShape (reading : Reading) (shape : Shape) (targets : List Nat) (tail : Tail)
    (config : Config) : Level :=
  let pieces := piecesOf (shape.edges.map (·.2)) targets []
  let first := reading == .forward
  { louds := .ofBits shape.loudsBits first true
    terminals := if first then .ofBits shape.terminalBits false true else .empty
    links := .ofBits (false :: pieces.map (·.isLink)) false false
    bases := (0 :: pieces.map (·.base)).toArray
    extras := .ofList (pieces.filterMap (·.extra?))
    tail := tail
    cache := cacheOf reading config.cache shape pieces
    rootDegree := shape.rootDegree
    config := config }

/-! ## Reading a level -/

/-- The target of the link into node `v`, which is the given number of links from the first one. -/
def linkTarget? (l : Level) (v number : Nat) : Option Nat := do
  let base ← l.bases[v]?
  let extra ← l.extras.get? number
  some (base.toNat + 256 * extra.toNat)

/-- What the edge into node `v` spells. -/
def piece? (l : Level) (v : Nat) : Option Piece := do
  if (← l.links.get? v) then
    (l.linkTarget? v (← l.links.rank1? v)).map .link
  else
    (l.bases[v]?).map .byte

/-- The node above node `v`, for `v > 0`. -/
def parent? (l : Level) (v : Nat) : Option Nat :=
  (l.louds.select1? v).map (· - v - 1)

/-- Whether a key ends at node `v`, and which. -/
def keyAt? (l : Level) (v : Nat) : Option (Option Nat) := do
  if (← l.terminals.get? v) then (l.terminals.rank1? v).map some else some none

/-- The level with every cache slot cleared. -/
def withoutCache (l : Level) : Level :=
  { l with cache := (l.cache.toList.map Slot.cleared).toArray }

/-! ## Sizes -/

/-- The bytes that the level occupies in memory. -/
def storageSize (l : Level) : Nat :=
  l.louds.storageSize + l.terminals.storageSize + l.links.storageSize + l.bases.size
    + l.extras.storageSize + l.tail.storageSize + 12 * l.cache.size

/-- The bytes that the level occupies in the stored form. -/
def wireSize (l : Level) : Nat :=
  l.louds.wireSize + l.terminals.wireSize + l.links.wireSize + blobSize l.bases.size
    + l.extras.wireSize + l.tail.wireSize + blobSize (12 * l.cache.size) + 8

end Level

end Lexicon
