/-
Lexicon.Keyset — the keys of a dictionary before it is built.

A keyset is a sequence of entries, each a byte string with its weight. The same
string may occur more than once. A key is refused if its bytes, or the keys with it,
are more than 32 bits can count. Building a dictionary writes into every entry the id
that the dictionary gives to its string.
-/
import Lexicon.Fault
import Lexicon.Weight

namespace Lexicon

/-- A staged key. -/
structure Entry where
  bytes : List UInt8
  weight : Weight := .one
  /-- The id given by the last build, 0 before that. -/
  id : Nat := 0
  deriving DecidableEq, Repr

/-- The keys to build a dictionary from, in the order in which they came. -/
structure Keyset where
  entries : Array Entry := #[]
  deriving DecidableEq, Repr

namespace Keyset

instance : Inhabited Keyset := ⟨{}⟩

/-- The keyset with one more key. -/
def push (ks : Keyset) (bytes : List UInt8) (weight : Weight := .one) : Keyset :=
  ⟨ks.entries.push { bytes, weight }⟩

/-- The keyset of a list of keys, all of weight one. -/
def ofList (keys : List (List UInt8)) : Keyset :=
  keys.foldl (fun ks key => ks.push key) {}

/-- The number of entries. -/
def size (ks : Keyset) : Nat :=
  ks.entries.size

/-- The keyset with one more key, unless the key or the keyset is too long. -/
def push? (ks : Keyset) (bytes : List UInt8) (weight : Weight := .one) : Except Fault Keyset :=
  if UInt32.size ≤ bytes.length then .error .keyTooLong
  else if UInt32.size ≤ ks.size + 1 then .error .tooManyKeys
  else .ok (ks.push bytes weight)

/-- The keyset of a list of keys, all of weight one, unless one of them is refused. -/
def ofList? (keys : List (List UInt8)) : Except Fault Keyset :=
  keys.foldlM (fun ks key => ks.push? key) {}

/-- The keyset with more keys of weight one, up to the first one that is refused. -/
def collect (ks : Keyset) : List (List UInt8) → Keyset
  | [] => ks
  | key :: keys =>
    match ks.push? key with
    | .ok ks => ks.collect keys
    | .error _ => ks

/-- Entry `i`, if there is one. -/
def get? (ks : Keyset) (i : Nat) : Option Entry :=
  ks.entries[i]?

/-- The number of bytes of all entries together. -/
def totalLength (ks : Keyset) : Nat :=
  sumOf (ks.entries.toList.map (·.bytes.length))

/-- The keyset whose entries carry the given ids, in order. -/
def withIds (ks : Keyset) (ids : List Nat) : Keyset :=
  ⟨(ks.entries.toList.zipWith (fun entry id => { entry with id }) ids).toArray⟩

end Keyset

end Lexicon
