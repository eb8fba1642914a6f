/-
Lexicon.Disk — dictionaries in named files.

A `Disk` holds files by name. Saving replaces a file by the stored form of a
dictionary; the file is made first, so an unbuilt dictionary leaves an empty one.
Loading reads a file as a stream, mapping reads it as a region.
-/
import Lexicon.Wire.Decode

namespace Lexicon

/-- Files by name. -/
structure Disk where
  files : List (String × List UInt8) := []

namespace Disk

/-- The contents of a file. -/
def read (disk : Disk) (name : String) : Except Fault (List UInt8) :=
  (disk.files.lookup name).elim (.error .noSuchFile) .ok

/-- The disk after a file was written, replacing one of the same name. -/
def write (disk : Disk) (name : String) (bytes : List UInt8) : Disk :=
  ⟨(name, bytes) :: disk.files.filter (·.1 != name)⟩

end Disk

namespace Dictionary

/-- The disk after the dictionary was saved, and whether it was. -/
def save (d : Dictionary) (disk : Disk) (name : String) : Disk × Except Fault Unit :=
  match d.cascade with
  | none => (disk.write name [], .error .notBuilt)
  | some c => (disk.write name c.encode, .ok ())

/-- The dictionary that a file stores, read as a stream. -/
def load (disk : Disk) (name : String) : Except Fault Dictionary := do
  read (.ofBytes (← disk.read name) none)

/-- The dictionary that a file stores, read in place. -/
def map (disk : Disk) (name : String) : Except Fault Dictionary := do
  ofBytes (← disk.read name)

end Dictionary

end Lexicon
