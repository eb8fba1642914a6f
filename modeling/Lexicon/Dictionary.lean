/-
Lexicon.Dictionary — static dictionaries of byte strings.

A `Dictionary` is a handle: it holds the levels of a dictionary that was built
or restored, or nothing yet. Building gives every different key of a keyset an
id and writes the ids into the keyset. The searches take an `Agent` and give it
back with their answer; a search that fails leaves the agent as it was, except
that an unknown id still gives it a search state.
-/
import Lexicon.Agent

namespace Lexicon

/-- A dictionary, or a place for one. -/
structure Dictionary where
  cascade : Option Cascade := none
  deriving DecidableEq, Repr

namespace Dictionary

instance : Inhabited Dictionary := ⟨{}⟩

/-- The dictionary of a keyset, and the keyset with the ids of its keys. -/
def build (ks : Keyset) (config : Config) : Except Fault (Dictionary × Keyset) := do
  let (cascade, ids) ← Cascade.ofKeyset config ks
  .ok (⟨some cascade⟩, ks.withIds ids)

/-- The levels, if the dictionary was built. -/
def built (d : Dictionary) : Except Fault Cascade :=
  d.cascade.elim (.error .notBuilt) .ok

/-! ## Searches -/

section

variable {σ : Type} [Memory σ]

/-- Runs a search on the levels; an unbuilt dictionary leaves the agent alone. -/
def search {α : Type} (d : Dictionary) (a : Agent σ)
    (run : Moves → Option (Agent σ × Except Fault α)) : Agent σ × Except Fault α :=
  match d.cascade with
  | none => (a, .error .notBuilt)
  | some c => (run c.moves).getD (a, .error .corrupt)

/-- Whether the agent's query is a key; if so it becomes the agent's key. -/
def lookup (d : Dictionary) (a : Agent σ) : Agent σ × Except Fault Bool :=
  d.search a fun m => (m.searchExact? a).map fun (a, hit) => (a, .ok hit)

/-- Makes the key whose id was set the agent's key. -/
def reverseLookup (d : Dictionary) (a : Agent σ) : Agent σ × Except Fault Unit :=
  d.search a fun m => m.searchId? a

/-- Whether there is one more key that is a prefix of the query; it becomes the agent's key. -/
def prefixSearch (d : Dictionary) (a : Agent σ) : Agent σ × Except Fault Bool :=
  d.search a fun m => (m.searchPrefix? a).map fun (a, hit) => (a, .ok hit)

/-- Whether there is one more key that starts with the query; it becomes the agent's key. -/
def extensionSearch (d : Dictionary) (a : Agent σ) : Agent σ × Except Fault Bool :=
  d.search a fun m => (m.searchExtension? a).map fun (a, hit) => (a, .ok hit)

end

/-! ## What a dictionary tells about itself -/

/-- A count or size of the levels, 0 if there are none. -/
def measure (d : Dictionary) (of : Cascade → Nat) : Nat :=
  (d.cascade.map of).getD 0

/-- The number of levels. -/
def numLevels (d : Dictionary) : Nat :=
  d.measure (·.top.config.levels)

/-- The number of keys. -/
def numKeys (d : Dictionary) : Nat :=
  d.measure (·.numKeys)

/-- The number of nodes on the first level; the root counts. -/
def numNodes (d : Dictionary) : Nat :=
  d.measure (·.top.numNodes)

/-- The number of nodes on all levels. -/
def totalNumNodes (d : Dictionary) : Nat :=
  d.measure (·.totalNumNodes)

/-- The bytes that the dictionary occupies in memory. -/
def storageSize (d : Dictionary) : Nat :=
  d.measure (·.storageSize)

/-- The bytes that the dictionary occupies in the stored form. -/
def wireSize (d : Dictionary) : Nat :=
  d.measure (·.wireSize)

/-- The configuration that the first level records. -/
def config? (d : Dictionary) : Option Config :=
  d.cascade.map (·.top.config)

/-- Whether there are no keys. -/
def isEmpty (d : Dictionary) : Bool :=
  d.numKeys == 0

/-- The dictionary with every cache slot cleared; its searches answer as before. -/
def withoutCache (d : Dictionary) : Dictionary :=
  ⟨d.cascade.map (·.withoutCache)⟩

end Dictionary

end Lexicon
