/-
Lexicon.Search.Progress — a search that is suspended, and nothing else.

A search that finds several keys stops after each of them. What it needs to go on
is its `Progress`: none, a node with the number of bytes that led there, or a
tour. A search of another kind starts over.
-/
import Lexicon.Cascade.Enumeration
import Lexicon.Search.Memory

namespace Lexicon

/-- Where a search of an agent stands. -/
inductive Progress
  /-- No search is suspended. -/
  | fresh
  /-- A search for prefixes, after the first `length` bytes of the query led to a node. -/
  | prefixes (node length : Nat)
  | prefixesDone
  /-- A search for extensions. -/
  | extensions (tour : Tour)
  | extensionsDone
  deriving DecidableEq, Repr

/-- The search that is suspended, and the last key that was written. -/
structure SearchState where
  progress : Progress := .fresh
  buffer : List UInt8 := []
  deriving DecidableEq, Repr

namespace SearchState

/-- Gives up the search that is suspended. -/
def reset (s : SearchState) : SearchState :=
  { s with progress := .fresh }

/-- Searches for the query. -/
def lookup? (m : Moves) (query : List UInt8) (s : SearchState) :
    Option (SearchState × Option Nat) :=
  (m.lookup? query).map fun found => (s.reset, found)

/-- Writes the key with an id. -/
def restore? (m : Moves) (id : Nat) (_s : SearchState) : Option SearchState :=
  (m.keyOf? id).map fun bytes => { buffer := bytes }

/-! ## Prefixes of the query -/

/-- What the key that was found next leaves behind, and its id and its length. -/
def reportPrefix (s : SearchState) : Option Moves.PrefixHit → SearchState × Option (Nat × Nat)
  | some hit => ({ s with progress := .prefixes hit.node hit.length }, some (hit.id, hit.length))
  | none => ({ s with progress := .prefixesDone }, none)

/-- Goes on from a node to the next key that is a prefix of the query. -/
def advancePrefix? (m : Moves) (query : List UInt8) (s : SearchState) (node length : Nat) :
    Option (SearchState × Option (Nat × Nat)) :=
  (m.nextPrefix? node length (query.drop length)).map s.reportPrefix

/-- Searches for the first key that is a prefix of the query. -/
def startPrefix? (m : Moves) (query : List UInt8) (s : SearchState) :
    Option (SearchState × Option (Nat × Nat)) := do
  match (← m.keyAt? 0) with
  | some id => some (s.reportPrefix (some ⟨0, 0, id⟩))
  | none => s.advancePrefix? m query 0 0

/-- Searches for the next key that is a prefix of the query, the shortest first. -/
def nextPrefix? (m : Moves) (query : List UInt8) (s : SearchState) :
    Option (SearchState × Option (Nat × Nat)) :=
  match s.progress with
  | .prefixesDone => some (s, none)
  | .prefixes node length => s.advancePrefix? m query node length
  | .fresh | .extensions _ | .extensionsDone => s.startPrefix? m query

/-! ## Extensions of the query -/

/-- What an event of a tour leaves behind, and the id of the key that it reports. -/
def report : Tour.Event → SearchState × Option Nat
  | .key id tour => ({ progress := .extensions tour, buffer := tour.here.bytes }, some id)
  | .finished bytes => ({ progress := .extensionsDone, buffer := bytes }, none)

/-- Searches for the first key that starts with the query. -/
def startExtension? (m : Moves) (query : List UInt8) : Option (SearchState × Option Nat) := do
  match (← m.locate? query) with
  | .found node bytes => (m.beginTour? node bytes).map report
  | .lost bytes => some ({ progress := .extensionsDone, buffer := bytes }, none)

/-- Searches for the next key that starts with the query, in the order of the siblings. -/
def nextExtension? (m : Moves) (query : List UInt8) (s : SearchState) :
    Option (SearchState × Option Nat) :=
  match s.progress with
  | .extensionsDone => some (s, none)
  | .extensions tour => (m.resume? tour).map report
  | .fresh | .prefixes .. | .prefixesDone => startExtension? m query

end SearchState

@[default_instance]
instance : Memory SearchState where
  fresh := {}
  reset := SearchState.reset
  buffer := SearchState.buffer
  lookup? := SearchState.lookup?
  restore? := SearchState.restore?
  nextPrefix? := SearchState.nextPrefix?
  nextExtension? := SearchState.nextExtension?

end Lexicon
