/-
Lexicon.Level.Shape — the tree of a list of strings, before it is numbered.

Strings that share a first byte share an edge, and the edge's label is all that
they have in common. A node is made from the strings that reach it: some end
there, the others go on along its edges in label order or by falling weight.
`Shape.nodes` lists the nodes layer by layer, so the position of a node in the
list is its number, and the children of a node stand together.
-/
import Lexicon.Config
import Lexicon.Weight
import Lexicon.Sorting.InPlace
import Lexicon.Sorting.Strings

namespace Lexicon

/-- The direction in which a level reads the bytes of its strings. -/
inductive Reading
  | forward | backward
  deriving DecidableEq, Repr

/-- The bytes of a string in the order in which they are read; reading twice gives the string. -/
def Reading.read : Reading → List UInt8 → List UInt8
  | .forward, string => string
  | .backward, string => string.reverse

/-- Byte `i` of a string in the order in which it is read, if there are so many. -/
def Reading.byte? : Reading → List UInt8 → (i : Nat) → Option UInt8
  | .forward, string, i => string[i]?
  | .backward, string, i => if i < string.length then string[string.length - 1 - i]? else none

/-- Elements as the strings that they hold, read in a direction. -/
def Reading.view {α : Type} (reading : Reading) (bytes : α → List UInt8) : Sorting.View α :=
  ⟨fun a => (bytes a).length, fun a => reading.byte? (bytes a)⟩

/-- A string on its way down the tree. -/
structure Pending where
  /-- What is left of it, in reading order. -/
  rest : List UInt8
  weight : Weight
  /-- Its place in the list that the tree is made from. -/
  index : Nat
  deriving DecidableEq, Repr

/-- An edge with the strings that take it. -/
structure Edge where
  /-- The bytes of the edge in reading order, at least one. -/
  label : List UInt8
  /-- The weight of the strings below. -/
  weight : Weight
  /-- The strings below, less the label. -/
  below : List Pending
  deriving DecidableEq, Repr

/-- Whether the label is kept in the next level or the tail. -/
def Edge.isLink (e : Edge) : Bool :=
  1 < e.label.length

/-- A node of the tree. -/
structure Node where
  /-- The places of the strings that end here. -/
  ended : List Nat
  edges : List Edge
  deriving DecidableEq, Repr

/-! ## Edges and nodes -/

/-- The bytes with which both strings start. -/
def commonPrefix : List UInt8 → List UInt8 → List UInt8
  | a :: as, b :: bs => if a = b then a :: commonPrefix as bs else []
  | _, _ => []

/-- The edge of the strings that share a first byte. -/
def Edge.ofRun (weight : Weight) (run : List Pending) : Edge :=
  let label :=
    match run with
    | [] => []
    | first :: others => others.foldl (fun label p => commonPrefix label p.rest) first.rest
  ⟨label, weight, run.map fun p => { p with rest := p.rest.drop label.length }⟩

/-- The weight of the first run of a node: its weights are added to the first of them. -/
def firstRunWeight : List Weight → Weight
  | [] => Total.zero.weight
  | w :: ws => (Total.sum w.total ws).weight

/-- The weight of a later run of a node: its weights are added to zero. -/
def laterRunWeight (weights : List Weight) : Weight :=
  (Total.sum .zero weights).weight

/-- The edges of the runs of a node, in label order. -/
def Edge.ofRuns : List (List Pending) → List Edge
  | [] => []
  | first :: later =>
    Edge.ofRun (firstRunWeight (first.map (·.weight))) first ::
      later.map fun run => Edge.ofRun (laterRunWeight (run.map (·.weight))) run

/-- The edges of a node in the order that its siblings take. -/
def SiblingOrder.arrange : SiblingOrder → List Edge → List Edge
  | .label, edges => edges
  | .weight, edges => Sorting.insertionSort (fun a b => b.weight.key ≤ a.weight.key) edges

/-- The node that the strings of a sorted list reach. -/
def Node.ofPending (order : SiblingOrder) (strings : List Pending) : Node :=
  let live := strings.filter (!·.rest.isEmpty)
  { ended := (strings.filter (·.rest.isEmpty)).map (·.index)
    edges := order.arrange (Edge.ofRuns (live.splitBy fun p q => p.rest.head? == q.rest.head?)) }

/-- The nodes of the trees of some sorted lists, layer by layer; `fuel` bounds the layers. -/
def breadthFirst (order : SiblingOrder) : (fuel : Nat) → List (List Pending) → List Node
  | 0, _ => []
  | _ + 1, [] => []
  | fuel + 1, layer =>
    let nodes := layer.map (Node.ofPending order)
    nodes ++ breadthFirst order fuel (nodes.flatMap fun n => n.edges.map (·.below))

/-! ## The shape of a list of strings -/

/-- The numbered nodes of a list of strings. -/
structure Shape where
  nodes : List Node
  /-- The number of different strings. -/
  distinct : Nat
  /-- The number of strings. -/
  strings : Nat
  deriving DecidableEq, Repr

namespace Shape

/-- The shape of a list of strings with their weights, each read in the given direction. -/
def ofStrings (order : SiblingOrder) (reading : Reading)
    (strings : List (List UInt8 × Weight)) : Shape :=
  let pending := strings.zipIdx.map fun ((string, weight), index) =>
    { rest := reading.read string, weight, index : Pending }
  let sorted := Sorting.sortStrings (·.rest) pending
  let longest := sorted.foldl (fun m p => max m p.rest.length) 0
  { nodes := breadthFirst order (longest + 1) [sorted]
    distinct := Sorting.distinct (sorted.map (·.rest))
    strings := strings.length }

/-- The edges, each with the number of the node it leaves; edge `i` enters node `i + 1`. -/
def edges (s : Shape) : List (Nat × Edge) :=
  s.nodes.zipIdx.flatMap fun (node, number) => node.edges.map (number, ·)

/-- The labels that are kept elsewhere, in the order of their edges. -/
def linkLabels (s : Shape) : List (List UInt8 × Weight) :=
  (s.edges.filter (·.2.isLink)).map fun (_, e) => (e.label, e.weight)

/-- For every string the number of the node where it ends. -/
def ends (s : Shape) : List Nat :=
  let places := s.nodes.zipIdx.flatMap fun (node, number) => node.ended.map (·, number)
  (places.foldl (fun ends (index, number) => ends.setIfInBounds index number)
    (Array.replicate s.strings 0)).toList

/-- The number of edges that leave the root. -/
def rootDegree (s : Shape) : Nat :=
  (s.nodes.head?.map (·.edges.length)).getD 0

/-- The bits that spell the tree: for every node a one for each child and a zero, behind the ones
and zeros of a node above the root, and before a zero that guards the end. -/
def loudsBits (s : Shape) : List Bool :=
  true :: false ::
    (s.nodes.flatMap (fun node => node.edges.map (fun _ => true) ++ [false]) ++ [false])

/-- For every node whether a string ends there, and a zero that guards the end. -/
def terminalBits (s : Shape) : List Bool :=
  s.nodes.map (!·.ended.isEmpty) ++ [false]

end Shape

end Lexicon
