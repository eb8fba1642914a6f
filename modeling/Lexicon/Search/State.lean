/-
Lexicon.Search.State — the record that all searches share.

A `State` is made once and used for one search after the other. Every search sets
only those fields that it needs when it starts, so the others still hold what an
earlier search left in them; the status alone tells which of the fields mean
something. The search for extensions keeps a list of visits, one for each layer that
it has been in, of which the first `historyPos` are the way to where it stands.
-/
import Lexicon.Search.Memory

namespace Lexicon

/-- What a search that is suspended can go on with. -/
inductive Status
  /-- Any search starts over. -/
  | ready
  | prefixes
  | extensions
  | prefixesDone
  | extensionsDone
  deriving DecidableEq, Repr

/-- Where a search for extensions is in one layer. -/
structure Visit where
  /-- The last node met in the layer, or the next one to meet. -/
  node : Nat
  /-- The position in `louds` of the next bit to read for the layer. -/
  position : Nat := 0
  /-- The number of bytes that lead to the node, once it is met. -/
  length : Nat := 0
  /-- The number of the last link met in the layer. -/
  link : Option Nat := none
  /-- The number of the last key met in the layer. -/
  key : Option Nat := none
  deriving DecidableEq, Repr

/-- What the searches keep, each using the fields that it needs. -/
structure State where
  /-- The bytes of the last key that a search wrote, or of the way to where it stands. -/
  buffer : List UInt8 := []
  history : List Visit := []
  /-- The node that was reached along the query. -/
  node : Nat := 0
  /-- The number of bytes of the query that led there. -/
  queryPos : Nat := 0
  /-- The number of visits on the way to where the search stands; the others lie ahead. -/
  historyPos : Nat := 0
  status : Status := .ready
  deriving DecidableEq, Repr

namespace State

/-! ## What is set when a search starts -/

/-- Gives up the search that is suspended. -/
def reset (st : State) : State :=
  { st with status := .ready }

/-- What the exact search sets. -/
def lookupInit (st : State) : State :=
  { st with node := 0, queryPos := 0, status := .ready }

/-- What the search by id sets. -/
def restoreInit (st : State) : State :=
  { st with buffer := [], status := .ready }

/-- What the search for prefixes sets. -/
def prefixInit (st : State) : State :=
  { st with node := 0, queryPos := 0, status := .prefixes }

/-- What the search for extensions sets. -/
def extensionInit (st : State) : State :=
  { st with
    buffer := [], history := [], node := 0, queryPos := 0, historyPos := 0, status := .extensions }

/-! ## Along the query -/

/-- The state after a step, whether it succeeded or not; the search for extensions copies. -/
def follow (st : State) (copies : Bool) (step : Step) : State :=
  { st with
    node := step.node
    queryPos := st.queryPos + step.used
    buffer := if copies then st.buffer ++ step.copied else st.buffer }

/-- Goes down along the query to its end, and tells whether that is possible. -/
def descend? (m : Moves) (copies : Bool) (query : List UInt8) (st : State) :
    Option (State × Bool) := do
  if _hleft : st.queryPos < query.length then
    let step ← m.step? copies st.node (query.drop st.queryPos)
    if step.fits then
      if _hused : 0 < step.used then descend? m copies query (st.follow copies step) else none
    else
      some (st.follow copies step, false)
  else
    some (st, true)
termination_by query.length - st.queryPos
decreasing_by simp only [follow]; omega

/-- Searches for the query. -/
def lookup? (m : Moves) (query : List UInt8) (st : State) : Option (State × Option Nat) := do
  let (st, arrived) ← st.lookupInit.descend? m false query
  if arrived then (m.keyAt? st.node).map (st, ·) else some (st, none)

/-- Goes down along the query to the next key. -/
def advancePrefix? (m : Moves) (query : List UInt8) (st : State) :
    Option (State × Option (Nat × Nat)) := do
  if _hleft : st.queryPos < query.length then
    let step ← m.step? false st.node (query.drop st.queryPos)
    if step.fits then
      if _hused : 0 < step.used then
        match (← m.keyAt? step.node) with
        | some id => some (st.follow false step, some (id, st.queryPos + step.used))
        | none => advancePrefix? m query (st.follow false step)
      else
        none
    else
      some ({ st.follow false step with status := .prefixesDone }, none)
  else
    some ({ st with status := .prefixesDone }, none)
termination_by query.length - st.queryPos
decreasing_by simp only [follow]; omega

/-- Searches for the first key that is a prefix of the query. -/
def startPrefix? (m : Moves) (query : List UInt8) (st : State) :
    Option (State × Option (Nat × Nat)) := do
  let st := st.prefixInit
  match (← m.keyAt? st.node) with
  | some id => some (st, some (id, st.queryPos))
  | none => st.advancePrefix? m query

/-- Searches for the next key that is a prefix of the query, the shortest first. -/
def nextPrefix? (m : Moves) (query : List UInt8) (st : State) :
    Option (State × Option (Nat × Nat)) :=
  match st.status with
  | .prefixesDone => some (st, none)
  | .prefixes => st.advancePrefix? m query
  | .ready | .extensions | .extensionsDone => st.startPrefix? m query

/-! ## Back to the root -/

/-- Writes the labels from a node up to the root, back to front, and turns the whole around. -/
def climb? (m : Moves) (st : State) (node : Nat) : Option State := do
  let (label, above) ← m.ascend? node
  let written := { st with node, buffer := st.buffer ++ label.reverse }
  match above with
  | none => some { written with buffer := written.buffer.reverse }
  | some parent => if parent < node then climb? m written parent else none
termination_by node

/-- Writes the key with an id. -/
def restore? (m : Moves) (id : Nat) (st : State) : Option State := do
  let node ← m.nodeOf? id
  if node = 0 then some { st.restoreInit with node } else st.restoreInit.climb? m node

/-! ## Below the node that was reached -/

/-- The history with a visit for the layer below the one where the search stands. -/
def extend? (m : Moves) (st : State) (depth : Nat) : Option (List Visit) := do
  if st.history.length = depth + 1 then
    let parent ← st.history[depth]?
    let (node, position) ← m.children? parent.node
    some (st.history ++ [{ node, position }])
  else
    some st.history

/-- Reads a bit for the layer below: meets a child, or goes up from a node that has no more of them.
Tells the id of the key if one ends there, or that the search ends. -/
def readVisit? (m : Moves) (st : State) (depth : Nat) (history : List Visit) :
    Option (State × Option (Option Nat)) := do
  let next ← history[depth + 1]?
  let advanced := { next with position := next.position + 1 }
  if (← m.isChild? next.node next.position) then
    let (label, link) ← m.label? next.link next.node
    let buffer := st.buffer ++ label
    let met := { advanced with length := buffer.length, link }
    match (← m.nextKey? next.key next.node) with
    | some id =>
      let history := history.set (depth + 1) { met with key := some id }
      some ({ st with history, historyPos := depth + 2, buffer }, some (some id))
    | none =>
      let history := history.set (depth + 1) met
      some ({ st with history, historyPos := depth + 2, buffer }, none)
  else
    let history := history.set (depth + 1) advanced
    match depth with
    | 0 => some ({ st with history, status := .extensionsDone }, some none)
    | above + 1 =>
      let here ← history[depth]?
      let parent ← history[above]?
      let history := history.set depth { here with node := here.node + 1 }
      let buffer := st.buffer.take parent.length
      some ({ st with history, historyPos := depth, buffer }, none)

/-- Goes on by one bit. -/
def turn? (m : Moves) (st : State) : Option (State × Option (Option Nat)) :=
  match st.historyPos with
  | 0 => none
  | depth + 1 => do st.readVisit? m depth (← st.extend? m depth)

/-- Goes on until a key is met or the search ends; `fuel` bounds the bits that are read. -/
def walk? (m : Moves) : (fuel : Nat) → State → Option (State × Option Nat)
  | 0, _ => none
  | fuel + 1, st => do
    match (← st.turn? m) with
    | (st, some found) => some (st, found)
    | (st, none) => walk? m fuel st

/-- Searches for the first key that starts with the query. -/
def startExtension? (m : Moves) (query : List UInt8) (st : State) :
    Option (State × Option Nat) := do
  let (st, arrived) ← st.extensionInit.descend? m true query
  if arrived then
    let visit : Visit := { node := st.node, length := st.buffer.length }
    let st := { st with history := st.history ++ [visit], historyPos := 1 }
    match (← m.keyAt? st.node) with
    | some id => some (st, some id)
    | none => st.walk? m m.fuel
  else
    some ({ st with status := .extensionsDone }, none)

/-- Searches for the next key that starts with the query, in the order of the siblings. -/
def nextExtension? (m : Moves) (query : List UInt8) (st : State) :
    Option (State × Option Nat) :=
  match st.status with
  | .extensionsDone => some (st, none)
  | .extensions => st.walk? m m.fuel
  | .ready | .prefixes | .prefixesDone => st.startExtension? m query

end State

instance : Memory State where
  fresh := {}
  reset := State.reset
  buffer := State.buffer
  lookup? := State.lookup?
  restore? := State.restore?
  nextPrefix? := State.nextPrefix?
  nextExtension? := State.nextExtension?

end Lexicon
