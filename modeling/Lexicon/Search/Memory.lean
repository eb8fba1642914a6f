/-
Lexicon.Search.Memory — what an agent keeps for its searches.

A `Memory` is whatever an agent keeps between its calls, with the four searches that
read and write it. `State` is one, a record that the searches reuse field by field;
`SearchState` is another, which keeps no more than the search that is suspended.
-/
import Lexicon.Cascade.Moves

namespace Lexicon

/-- What can be kept for the four searches. Each search takes the moves of a dictionary and gives
back what is kept after it, or nothing at all where the moves give no answer. -/
class Memory (σ : Type) where
  /-- What is kept before the first search. -/
  fresh : σ
  /-- Gives up the search that is suspended. -/
  reset : σ → σ
  /-- The bytes of the last key that a search wrote. -/
  buffer : σ → List UInt8
  /-- Searches for the query, with the id of the key that it is. -/
  lookup? : Moves → (query : List UInt8) → σ → Option (σ × Option Nat)
  /-- Writes the key with an id, which is below the number of keys. -/
  restore? : Moves → (id : Nat) → σ → Option σ
  /-- Searches for the next key that is a prefix of the query, with its id and its length. -/
  nextPrefix? : Moves → (query : List UInt8) → σ → Option (σ × Option (Nat × Nat))
  /-- Searches for the next key that starts with the query and writes it, with its id. -/
  nextExtension? : Moves → (query : List UInt8) → σ → Option (σ × Option Nat)

end Lexicon
