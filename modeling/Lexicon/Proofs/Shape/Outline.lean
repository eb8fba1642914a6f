/-
Lexicon.Proofs.Shape.Outline — what a level keeps of a tree.

A level is laid out from the labels and weights of the edges, from the marks of the nodes
where some string ends, and from the number of different strings. Which strings take an
edge, and which and how many of them end at a node, is the same to it. `Shape.outline`
forgets all this, each function that `Level.ofShape` calls gives the same of a shape and of
its outline, and so does the level (`Level.ofShape_outline`).
-/
import Lexicon.Proofs.Level.Caching

namespace Lexicon

/-- An edge without the strings that take it. -/
def Edge.outline (e : Edge) : Edge :=
  { e with below := [] }

/-- A node without the strings that reach it; whether some end there is still told. -/
def Node.outline (n : Node) : Node :=
  ⟨if n.ended.isEmpty then [] else [0], n.edges.map Edge.outline⟩

@[simp] theorem Edge.label_outline (e : Edge) : e.outline.label = e.label := rfl

@[simp] theorem Edge.weight_outline (e : Edge) : e.outline.weight = e.weight := rfl

@[simp] theorem Edge.isLink_outline (e : Edge) : e.outline.isLink = e.isLink := rfl

@[simp] theorem Node.edges_outline (n : Node) : n.outline.edges = n.edges.map Edge.outline := rfl

@[simp] theorem Node.isEmpty_ended_outline (n : Node) :
    n.outline.ended.isEmpty = n.ended.isEmpty := by
  unfold Node.outline
  cases n.ended with
  | nil => rfl
  | cons i ended => rfl

namespace Shape

/-- A shape without its strings; how many different ones there are is still told. -/
def outline (s : Shape) : Shape :=
  ⟨s.nodes.map Node.outline, s.distinct, 0⟩

variable (s : Shape)

@[simp] theorem distinct_outline : s.outline.distinct = s.distinct := rfl

theorem edges_outline : s.outline.edges = s.edges.map fun x => (x.1, x.2.outline) := by
  unfold edges outline
  rw [List.zipIdx_map, List.flatMap_map, List.map_flatMap]
  simp [Function.comp_def]

@[simp] theorem linkLabels_outline : s.outline.linkLabels = s.linkLabels := by
  unfold linkLabels
  rw [edges_outline, List.filter_map, List.map_map]
  rfl

@[simp] theorem rootDegree_outline : s.outline.rootDegree = s.rootDegree := by
  unfold rootDegree outline
  cases s.nodes with
  | nil => rfl
  | cons node nodes => simp

@[simp] theorem loudsBits_outline : s.outline.loudsBits = s.loudsBits := by
  unfold loudsBits outline
  rw [List.flatMap_map]
  simp

@[simp] theorem terminalBits_outline : s.outline.terminalBits = s.terminalBits := by
  simp [terminalBits, outline]

end Shape

namespace Level

theorem piecesOf_outline (edges : List Edge) (targets : List Nat) (done : List Piece) :
    piecesOf (edges.map Edge.outline) targets done = piecesOf edges targets done := by
  induction edges generalizing targets done with
  | nil => rfl
  | cons e edges ih => simp [piecesOf, ih]

theorem slotOf_outline (reading : Reading) (slots parent child : Nat) (e : Edge) :
    slotOf reading slots parent child e.outline = slotOf reading slots parent child e := by
  cases reading with
  | forward => rfl
  | backward => rfl

theorem offeredOf_outline (reading : Reading) (slots : Nat) (s : Shape) :
    offeredOf reading slots s.outline = offeredOf reading slots s := by
  unfold offeredOf
  rw [Shape.edges_outline, List.zipIdx_map, List.foldl_map]
  simp [slotOf_outline]

theorem cacheOf_outline (reading : Reading) (size : CacheSize) (s : Shape) (pieces : List Piece) :
    cacheOf reading size s.outline pieces = cacheOf reading size s pieces := by
  change ((offeredOf reading (slotCount reading size s.distinct) s.outline).toList.map _).toArray
    = ((offeredOf reading (slotCount reading size s.distinct) s).toList.map _).toArray
  rw [offeredOf_outline]

/-- A shape and its outline are laid out alike. -/
theorem ofShape_outline (reading : Reading) (s : Shape) (targets : List Nat) (tail : Tail)
    (config : Config) :
    ofShape reading s.outline targets tail config = ofShape reading s targets tail config := by
  have hedges : s.outline.edges.map (·.2) = (s.edges.map (·.2)).map Edge.outline := by
    rw [Shape.edges_outline, List.map_map, List.map_map]
    rfl
  unfold ofShape
  rw [hedges, piecesOf_outline]
  simp [cacheOf_outline]

end Level

end Lexicon
