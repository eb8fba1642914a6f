/-
Lexicon.Cascade.Basic — the levels of a dictionary.

The first level spells the keys. A label of more than one byte is a key of the
next level, which reads it backward, and so on; the labels of the last level are
in its tail. `Cascade.ofKeyset` builds all levels from the keys, and gives up if a
vector or a tail among them would outgrow its 32-bit counts.
-/
import Lexicon.Keyset
import Lexicon.Level.Basic
import Lexicon.Tail.Build

namespace Lexicon

/-- The levels of a dictionary, the first one and those below it. -/
structure Cascade where
  top : Level
  deeper : List Level
  deriving DecidableEq, Repr

namespace Cascade

/-- All levels, the first one first. -/
def levels (c : Cascade) : List Level :=
  c.top :: c.deeper

/-! ## Building -/

/-- What a level records: what the level below records with one level more, or on the last level
what was asked for and how the tail came out. -/
def recordedConfig (config : Config) (tail : Tail) : Option Level → Config
  | some below => { below.config with levels := below.config.levels + 1 }
  | none => { config with levels := 1, tail := tail.mode }

/-- A level with those below it, unless it has too many nodes to flag each of them. -/
def checked (level : Level) (deeper : List Level) : Except Fault Cascade := do
  BitVector.checkSize level.links.size
  BitVector.checkSize level.terminals.size
  .ok ⟨level, deeper⟩

/-- The levels of a list of strings with at most `more` levels below the first, and for each string
the node where it ends. -/
def build (config : Config) : (more : Nat) → Reading → List (List UInt8 × Weight) →
    Except Fault (Cascade × List Nat)
  | more, reading, strings => do
    let shape := Shape.ofStrings config.order reading strings
    let labels := shape.linkLabels.map fun (label, weight) => (reading.read label, weight)
    let level (targets : List Nat) (tail : Tail) (below : Option Level) : Level :=
      .ofShape reading shape targets tail (recordedConfig config tail below)
    BitVector.checkSize shape.loudsBits.length
    if labels.isEmpty then
      .ok (← checked (level [] .empty none) [], shape.ends)
    else
      match more with
      | 0 =>
        let (tail, positions) ← Tail.ofStrings config.tail (labels.map (·.1))
        .ok (← checked (level positions tail none) [], shape.ends)
      | more + 1 =>
        let (below, targets) ← build config more .backward labels
        .ok (← checked (level targets .empty (some below.top)) below.levels, shape.ends)

/-- The levels of the keys of a keyset, and the id of each entry: the number of keys that end at a
node before the entry's own. -/
def ofKeyset (config : Config) (ks : Keyset) : Except Fault (Cascade × List Nat) := do
  config.check
  let strings := ks.entries.toList.map fun entry => (entry.bytes, entry.weight)
  let (cascade, ends) ← build config (config.levels - 1) .forward strings
  .ok (cascade, ends.map cascade.top.terminals.rank1)

/-! ## Counts and sizes -/

/-- The number of keys. -/
def numKeys (c : Cascade) : Nat :=
  c.top.terminals.ones

/-- The number of nodes on all levels. -/
def totalNumNodes (c : Cascade) : Nat :=
  sumOf (c.levels.map (·.numNodes))

/-- The cascade with every cache slot cleared. -/
def withoutCache (c : Cascade) : Cascade :=
  ⟨c.top.withoutCache, c.deeper.map (·.withoutCache)⟩

/-- The bytes that the levels occupy in memory. -/
def storageSize (c : Cascade) : Nat :=
  sumOf (c.levels.map (·.storageSize))

/-- The bytes that the levels occupy in the stored form, with the header. -/
def wireSize (c : Cascade) : Nat :=
  16 + sumOf (c.levels.map (·.wireSize))

end Cascade

end Lexicon
