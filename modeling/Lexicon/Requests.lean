/-
Lexicon.Requests — rows of requests to agents.

A `Request` is anything that can be asked of an agent. `Dictionary.serve` makes one
request to a dictionary, `Dictionary.serveAll` a row of them, each to a dictionary of
its own, and `Dictionary.replies` is what is seen of such a row from outside.
-/
import Lexicon.Dictionary

namespace Lexicon

/-- What can be asked of an agent. -/
inductive Request
  | setQuery (query : List UInt8)
  | setQueryId (id : Nat)
  | initState
  /-- The agent forgets everything. -/
  | clear
  | lookup
  | reverseLookup
  | prefixSearch
  | extensionSearch
  deriving DecidableEq, Repr

/-- What is seen of a request: that there was no key, the key that there is now with its id, or why
the request failed. -/
def replyOf (outcome : Except Fault Bool) (key : List UInt8 × Nat) :
    Except Fault (Option (List UInt8 × Nat)) :=
  outcome.map fun hit => if hit then some key else none

namespace Dictionary

variable {σ : Type} [Memory σ]

/-- The agent after a request, and whether it holds what was asked for, or why the request failed. -/
def serve (d : Dictionary) (a : Agent σ) : Request → Agent σ × Except Fault Bool
  | .setQuery query => (a.setQuery query, .ok true)
  | .setQueryId id => (a.setQueryId id, .ok true)
  | .initState =>
    match a.initState with
    | .ok a' => (a', .ok true)
    | .error fault => (a, .error fault)
  | .clear => ({}, .ok true)
  | .lookup => d.lookup a
  | .reverseLookup => ((d.reverseLookup a).1, (d.reverseLookup a).2.map fun _ => true)
  | .prefixSearch => d.prefixSearch a
  | .extensionSearch => d.extensionSearch a

/-- The agent and the outcome after each of some requests, every one made to the dictionary that
stands beside it. -/
def serveAll : Agent σ → List (Dictionary × Request) → List (Agent σ × Except Fault Bool)
  | _, [] => []
  | a, (d, r) :: rest => d.serve a r :: serveAll (d.serve a r).1 rest

/-- The replies of an agent to requests that are made to a dictionary. -/
def replies (d : Dictionary) :
    Agent σ → List Request → List (Except Fault (Option (List UInt8 × Nat)))
  | _, [] => []
  | a, r :: rest =>
    let (a', outcome) := d.serve a r
    replyOf outcome (a'.key, a'.keyId) :: replies d a' rest

end Dictionary

end Lexicon
