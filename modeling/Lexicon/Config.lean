/-
Lexicon.Config — how a dictionary is to be built.

A configuration says how many levels a dictionary may have, how large the
caches are, how leftover strings are stored and in which order siblings stand.
It is stored as one 32-bit word of four fields; `Config.ofWord` reads a word,
taking a zero field for its default and refusing everything that
`Config.word` never writes.
-/
import Lexicon.Fault

namespace Lexicon

/-- How many distinct strings share one cache slot. -/
inductive CacheSize
  | huge | large | normal | small | tiny
  deriving DecidableEq, Repr

/-- How leftover strings are stored: ended by a NUL byte, or as raw bytes with end flags. -/
inductive TailMode
  | text | binary
  deriving DecidableEq, Repr

/-- How siblings are ordered: by ascending label, or by descending weight. -/
inductive SiblingOrder
  | label | weight
  deriving DecidableEq, Repr

namespace CacheSize

/-- The value of the cache field. -/
def flag : CacheSize → UInt32
  | huge => 0x080
  | large => 0x100
  | normal => 0x200
  | small => 0x400
  | tiny => 0x800

/-- The number of distinct strings for each slot. -/
def divisor (c : CacheSize) : Nat :=
  c.flag.toNat

/-- The meaning of a cache field. -/
def ofFlag (flag : UInt32) : Option CacheSize :=
  if flag = 0 then some .normal
  else [huge, large, normal, small, tiny].find? (·.flag == flag)

end CacheSize

namespace TailMode

/-- The value of the tail field. -/
def flag : TailMode → UInt32
  | text => 0x1000
  | binary => 0x2000

/-- The meaning of a tail field. -/
def ofFlag (flag : UInt32) : Option TailMode :=
  if flag = 0 then some .text
  else [text, binary].find? (·.flag == flag)

end TailMode

namespace SiblingOrder

/-- The value of the order field. -/
def flag : SiblingOrder → UInt32
  | label => 0x10000
  | weight => 0x20000

/-- The meaning of an order field. -/
def ofFlag (flag : UInt32) : Option SiblingOrder :=
  if flag = 0 then some .weight
  else [label, weight].find? (·.flag == flag)

end SiblingOrder

/-- How a dictionary is to be built. -/
structure Config where
  /-- The largest number of levels. -/
  levels : Nat := 3
  cache : CacheSize := .normal
  tail : TailMode := .text
  order : SiblingOrder := .weight
  deriving DecidableEq, Repr

namespace Config

instance : Inhabited Config := ⟨{}⟩

/-- The least number of levels. -/
def minLevels : Nat := 1

/-- The greatest number of levels. -/
def maxLevels : Nat := 127

/-- The number of levels when none is given. -/
def defaultLevels : Nat := 3

/-- The configuration that enumerates keys in byte order. -/
def sorted : Config :=
  { order := .label }

/-- Whether the number of levels is within its limits. -/
def Valid (c : Config) : Prop :=
  minLevels ≤ c.levels ∧ c.levels ≤ maxLevels

instance (c : Config) : Decidable c.Valid :=
  inferInstanceAs (Decidable (_ ∧ _))

/-- Accepts the configurations that are valid. -/
def check (c : Config) : Except Fault Unit :=
  if c.Valid then .ok () else .error .levelLimit

/-- The word of a configuration. -/
def word (c : Config) : UInt32 :=
  (c.levels.toUInt32 &&& 0x7F) ||| c.cache.flag ||| c.tail.flag ||| c.order.flag

/-- The configuration of a word, if all its bits are defined. -/
def ofWord? (word : UInt32) : Option Config := do
  if word &&& 0xFFF00000 ≠ 0 then none
  else
    let levels := (word &&& 0x7F).toNat
    let cache ← CacheSize.ofFlag (word &&& 0xF80)
    let tail ← TailMode.ofFlag (word &&& 0xF000)
    let order ← SiblingOrder.ofFlag (word &&& 0xF0000)
    some ⟨if levels = 0 then defaultLevels else levels, cache, tail, order⟩

/-- The configuration of a word, or the complaint that the word is undefined. -/
def ofWord (word : UInt32) : Except Fault Config :=
  (ofWord? word).elim (.error (.undefinedCode word)) .ok

end Config

end Lexicon
