/-
Lexicon.Agent — the holder of a query, of its last answer and of a suspended search.

An agent puts its query to the searches of its `Memory` and takes down what they
find. Setting a query forgets the search that is suspended and the answer. The last
key is either the front of the query or what the memory has written, which a later
search may change.
-/
import Lexicon.Search.Progress

namespace Lexicon

/-- The last key that an agent was given, with its id. -/
inductive Answer
  | nothing
  /-- The first `length` bytes of the query. -/
  | front (length id : Nat)
  /-- What the memory has written. -/
  | buffered (id : Nat)
  deriving DecidableEq, Repr

/-- The id of the key; 0 if there is none. -/
def Answer.id : Answer → Nat
  | nothing => 0
  | front _ id => id
  | buffered id => id

/-- A query with its last answer and its memory, which is that of a suspended search unless another
one is named. -/
structure Agent (σ : Type := SearchState) where
  query : List UInt8 := []
  queryId : Nat := 0
  answer : Answer := .nothing
  state : Option σ := none
  deriving DecidableEq, Repr

namespace Agent

variable {σ : Type} [Memory σ]

instance : Inhabited (Agent σ) := ⟨{}⟩

/-- Whether the agent has a memory. -/
def hasState (a : Agent σ) : Bool :=
  a.state.isSome

/-- The agent's memory, a new one if it has none. -/
def searchState (a : Agent σ) : σ :=
  a.state.getD Memory.fresh

/-- The bytes of the last key. -/
def key (a : Agent σ) : List UInt8 :=
  match a.answer with
  | .nothing => []
  | .front length _ => a.query.take length
  | .buffered _ => Memory.buffer a.searchState

/-- The id of the last key. -/
def keyId (a : Agent σ) : Nat :=
  a.answer.id

/-- The last key as text, if it is valid UTF-8. -/
def keyText? (a : Agent σ) : Option String :=
  String.fromUTF8? a.key.toByteArray

/-! ## Setting a query -/

/-- The agent without its answer and without a suspended search. -/
def reset (a : Agent σ) : Agent σ :=
  { a with
    answer := .nothing
    state := a.state.map Memory.reset }

/-- The agent with another query. -/
def setQuery (a : Agent σ) (query : List UInt8) : Agent σ :=
  reset { a with query }

/-- The agent with another id to look up. -/
def setQueryId (a : Agent σ) (id : Nat) : Agent σ :=
  reset { a with queryId := id }

/-- The agent with a memory, unless it has one. -/
def initState (a : Agent σ) : Except Fault (Agent σ) :=
  if a.hasState then .error .alreadyInitialized else .ok { a with state := some Memory.fresh }

/-- The agent after a search, with the answer if there is one, and whether there is. -/
def after (a : Agent σ) (state : σ) : Option Answer → Agent σ × Bool
  | some answer => ({ a with answer, state := some state }, true)
  | none => ({ a with state := some state }, false)

end Agent

/-! ## The four searches that an agent can make -/

namespace Moves

variable {σ : Type} [Memory σ]

/-- Whether the query is a key. -/
def searchExact? (m : Moves) (a : Agent σ) : Option (Agent σ × Bool) :=
  (Memory.lookup? m a.query a.searchState).map fun (state, found) =>
    a.after state (found.map (.front a.query.length))

/-- Restores the key whose id was set. -/
def searchId? (m : Moves) (a : Agent σ) : Option (Agent σ × Except Fault Unit) :=
  if a.queryId < m.numKeys then
    (Memory.restore? m a.queryId a.searchState).map fun state =>
      ((a.after state (some (.buffered a.queryId))).1, .ok ())
  else
    some ((a.after a.searchState none).1, .error (.unknownId a.queryId m.numKeys))

/-- Finds the next key that is a prefix of the query, the shortest first. -/
def searchPrefix? (m : Moves) (a : Agent σ) : Option (Agent σ × Bool) :=
  (Memory.nextPrefix? m a.query a.searchState).map fun (state, found) =>
    a.after state (found.map fun (id, length) => .front length id)

/-- Finds the next key that starts with the query, in the order of the siblings. -/
def searchExtension? (m : Moves) (a : Agent σ) : Option (Agent σ × Bool) :=
  (Memory.nextExtension? m a.query a.searchState).map fun (state, found) =>
    a.after state (found.map .buffered)

end Moves

end Lexicon
