/-
Lexicon.Tail.Basic — the store of strings that no level holds.

The strings stand one behind the other in an array of bytes, and a string is
known by the position of its first byte. Where it ends is told in one of two
ways: by a NUL byte behind it, or by a flag on its last byte.
-/
import Lexicon.Agreement
import Lexicon.Bits.RankSelect
import Lexicon.Config

namespace Lexicon

/-- Strings in an array of bytes, with end flags unless they end by a NUL byte. -/
structure Tail where
  bytes : Array UInt8
  endFlags : BitVector
  deriving DecidableEq, Repr

namespace Tail

/-- The tail of a level that never had one. -/
def empty : Tail := ⟨#[], .empty⟩

instance : Inhabited Tail := ⟨empty⟩

/-- How the strings end. -/
def mode (t : Tail) : TailMode :=
  if t.endFlags.size = 0 then .text else .binary

/-- Whether nothing is stored. -/
def isEmpty (t : Tail) : Bool :=
  t.bytes.isEmpty

/-- Whether a string ends with the byte before position `i`. -/
def endsAt? (t : Tail) (i : Nat) : Option Bool :=
  match t.mode with
  | .text => (t.bytes[i]?).map (· == 0)
  | .binary => t.endFlags.get? (i - 1)

/-- The bytes from a position up to the end of the string there. -/
def restore? (t : Tail) (i : Nat) : Option (List UInt8) :=
  if h : i < t.bytes.size then
    let byte := t.bytes[i]
    match t.mode with
    | .text => if byte = 0 then some [] else (restore? t (i + 1)).map (byte :: ·)
    | .binary =>
      (t.endFlags.get? i).bind fun last =>
        if last then some [byte] else (restore? t (i + 1)).map (byte :: ·)
  else
    none
termination_by t.bytes.size - i

/-- How far the string at a position agrees with the rest of a query. -/
def follow? (t : Tail) (copies : Bool) : (i : Nat) → List UInt8 → Option Agreement
  | _, [] => some .apart
  | i, b :: rest => do
    let byte ← t.bytes[i]?
    if byte = b then
      let first := Agreement.passed copies [b]
      if (← t.endsAt? (i + 1)) then some first
      else if rest.isEmpty then
        if copies then (t.restore? (i + 1)).map first.complete else some first.fail
      else (follow? t copies (i + 1) rest).map first.before
    else
      some .apart

/-! ## Sizes -/

/-- The bytes that the tail occupies in memory. -/
def storageSize (t : Tail) : Nat :=
  t.bytes.size + t.endFlags.storageSize

/-- The bytes that the tail occupies in the stored form. -/
def wireSize (t : Tail) : Nat :=
  blobSize t.bytes.size + t.endFlags.wireSize

end Tail

end Lexicon
