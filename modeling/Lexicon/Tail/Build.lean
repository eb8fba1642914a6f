/-
Lexicon.Tail.Build — storing strings so that ends are shared.

The strings are sorted by their reversals and placed from the last to the
first, so a string that ends another one comes right after a string that it
ends. Such a string is not written again: its position lies inside the one
placed before it. An empty string is refused, and so is a string behind which
the tail would be too long.
-/
import Lexicon.Sorting.Strings
import Lexicon.Tail.Basic

namespace Lexicon.Tail

/-- A tail that is being filled. -/
structure Filling where
  /-- The string placed last, back to front, and its position. -/
  last : Option (List UInt8 × Nat) := none
  /-- The number of bytes written. -/
  used : Nat := 0
  /-- The strings written, the last one first. -/
  written : List (List UInt8) := []
  /-- The position of each string placed, by its index. -/
  positions : List (Nat × Nat) := []

namespace Filling

/-- Writes a string behind those before it, with `gap` bytes after it. -/
def write (gap : Nat) (f : Filling) (reversed : List UInt8) (index : Nat) : Filling :=
  { last := some (reversed, f.used)
    used := f.used + reversed.length + gap
    written := reversed.reverse :: f.written
    positions := (index, f.used) :: f.positions }

/-- Places a string: inside the one placed last if it ends that one, else behind it. -/
def place (gap : Nat) (f : Filling) (item : List UInt8 × Nat) : Filling :=
  match f.last with
  | none => f.write gap item.1 item.2
  | some (last, position) =>
    if item.1.isPrefixOf last then
      let inside := position + (last.length - item.1.length)
      { f with
        last := some (item.1, inside)
        positions := (item.2, inside) :: f.positions }
    else
      f.write gap item.1 item.2

/-- Places a string that is not empty, unless the tail becomes too long by it. -/
def place? (gap : Nat) (f : Filling) (item : List UInt8 × Nat) : Except Fault Filling :=
  if item.1.isEmpty then .error .emptySuffix
  else if (f.place gap item).used < UInt32.size then .ok (f.place gap item)
  else .error .tailTooLong

end Filling

/-- The way in which strings are stored: as asked for, unless a NUL byte among them forbids it. -/
def modeFor (mode : TailMode) (strings : List (List UInt8)) : TailMode :=
  if strings.any (·.contains 0) then .binary else mode

/-- The bytes of a written string. -/
def writtenBytes (mode : TailMode) (string : List UInt8) : List UInt8 :=
  match mode with
  | .text => string ++ [0]
  | .binary => string

/-- The end flags of a written string. -/
def writtenFlags (mode : TailMode) (string : List UInt8) : List Bool :=
  match mode with
  | .text => []
  | .binary => List.replicate (string.length - 1) false ++ [true]

/-- The tail of a list of strings, and the position of each of them. -/
def ofStrings (mode : TailMode) (strings : List (List UInt8)) :
    Except Fault (Tail × List Nat) := do
  let mode := modeFor mode strings
  let gap := match mode with
    | .text => 1
    | .binary => 0
  let items := Sorting.sortStrings (·.1) (strings.zipIdx.map fun (s, i) => (s.reverse, i))
  let filled ← items.reverse.foldlM (Filling.place? gap) {}
  let written := filled.written.reverse
  let flags := written.flatMap (writtenFlags mode)
  BitVector.checkSize flags.length
  let positions := filled.positions.foldl
    (fun places (index, position) => places.setIfInBounds index position)
    (Array.replicate strings.length 0)
  .ok ({ bytes := (written.flatMap (writtenBytes mode)).toArray
         endFlags := .ofBits flags false false },
       positions.toList)

end Lexicon.Tail
