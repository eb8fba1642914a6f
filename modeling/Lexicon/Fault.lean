/-
Lexicon.Fault — why an operation of the library can fail.

A fault names its cause; `Fault.message` is the only place that puts a cause
into words. `Malformed` lists what a reader can find wrong with stored bytes,
`Fault` everything else, and `Fault.corrupt` is what a search answers on a
dictionary whose parts do not fit together, which no dictionary that was built
here ever is.
-/

namespace Lexicon

/-- What a reader can find wrong with the bytes of a stored dictionary. -/
inductive Malformed
  /-- The first bytes are not the header. -/
  | header
  /-- The length of an array is no multiple of its record size. -/
  | unevenBlob (bytes record : Nat)
  /-- A field reaches past the end of the region. -/
  | regionEnd (need offset available : Nat)
  /-- An array starts where its records cannot be read in place. -/
  | misalignedBlob (offset : Nat)
  /-- A bit vector claims more ones than bits. -/
  | tooManyOnes (ones bits : Nat)
  /-- A bit vector has more or fewer words than its bits need. -/
  | wordCount (bits words : Nat)
  /-- A bit vector has more or fewer rank records than its bits need. -/
  | recordCount (bits records : Nat)
  /-- The values of a packed vector are wider than 32 bits. -/
  | valueWidth (width : Nat)
  /-- The mask of a packed vector is not that of its width. -/
  | valueMask (mask width : Nat)
  /-- The words of a packed vector are too few for its values. -/
  | valuesDoNotFit (values width words : Nat)
  /-- A tail has end flags, but not one for each byte. -/
  | endFlagCount (bytes flags : Nat)
  /-- A tail without end flags does not end with a NUL byte. -/
  | unterminatedTail
  /-- The number of cache slots is no power of two. -/
  | cacheSize (slots : Nat)
  /-- The bits that spell the tree are too few or lack the samples that searches need. -/
  | shape
  /-- The edges of a level are not as many as its nodes. -/
  | nodeCount (nodes bases flags : Nat)
  /-- The links of a level are not as many as their extras. -/
  | extraCount (links extras : Nat)
  /-- The first level does not tell for each node whether a key ends there. -/
  | terminalFlags
  /-- The root has as many children as the level has nodes, or more. -/
  | rootDegree (degree nodes : Nat)
  /-- A level does not record the number of levels that it starts. -/
  | levelCount (recorded held : Nat)
  deriving DecidableEq, Repr

/-- The cause of a failed operation. -/
inductive Fault
  /-- The dictionary was never built or loaded. -/
  | notBuilt
  /-- The agent already holds a search state. -/
  | alreadyInitialized
  /-- A key id at or above the number of keys. -/
  | unknownId (id count : Nat)
  /-- A position at or past the end of a vector. -/
  | outOfBounds (position length : Nat)
  /-- The configured number of levels is outside 1 … 127. -/
  | levelLimit
  /-- An empty string was handed to the tail. -/
  | emptySuffix
  /-- A configuration word with undefined bits or values. -/
  | undefinedCode (word : UInt32)
  /-- A key of more bytes than can be counted. -/
  | keyTooLong
  /-- A keyset has as many keys as can be counted. -/
  | tooManyKeys
  /-- A vector of more bits than can be counted. -/
  | tooManyBits
  /-- A tail of more bytes than a position can reach. -/
  | tailTooLong
  /-- A stored length that no address can reach. -/
  | lengthLimit
  /-- The stream ended before a field was complete. -/
  | streamEnd
  /-- The sink took no more bytes. -/
  | sinkFull
  /-- There is no file of that name. -/
  | noSuchFile
  /-- The stored bytes are not those of a dictionary. -/
  | malformed (reason : Malformed)
  /-- A search left the dictionary's own structure. -/
  | corrupt
  deriving DecidableEq, Repr

/-- A number in lower-case hexadecimal with its `0x` mark. -/
def hexText (n : Nat) : String :=
  "0x" ++ String.ofList (Nat.toDigits 16 n)

/-- What is wrong with the bytes, in words. -/
def Malformed.message : Malformed → String
  | header => "bad header: not a serialized trie"
  | unevenBlob bytes record =>
    s!"blob of {bytes} bytes is not a multiple of the {record}-byte record size"
  | regionEnd need offset available =>
    s!"unexpected end of mapped region: need {need} bytes at offset {offset}, {available} available"
  | misalignedBlob offset => s!"misaligned blob at offset {offset}"
  | tooManyOnes ones bits => s!"bitvector claims {ones} ones in {bits} bits"
  | wordCount bits words => s!"bitvector of {bits} bits carries {words} words"
  | recordCount bits records => s!"bitvector of {bits} bits carries {records} rank records"
  | valueWidth width => s!"value size {width} exceeds 32 bits"
  | valueMask mask width => s!"mask {hexText mask} does not match value size {width}"
  | valuesDoNotFit values width words =>
    s!"{values} values of {width} bits do not fit in {words} words"
  | endFlagCount bytes flags => s!"tail of {bytes} bytes carries {flags} end flags"
  | unterminatedTail => "text tail is not NUL-terminated"
  | cacheSize slots => s!"cache of {slots} slots is not a power of two"
  | shape => "level has a malformed LOUDS bitvector"
  | nodeCount nodes bases flags =>
    s!"level of {nodes} nodes carries {bases} bases and {flags} link flags"
  | extraCount links extras => s!"level has {links} links but {extras} extras"
  | terminalFlags => "top level has malformed terminal flags"
  | rootDegree degree nodes => s!"{degree} first-level nodes in a level of {nodes} nodes"
  | levelCount recorded held => s!"level records {recorded} tries but holds {held}"

/-- The cause of a failure, in words. -/
def Fault.message : Fault → String
  | notBuilt => "invalid state: trie has not been built or loaded"
  | alreadyInitialized => "invalid state: agent state is already initialized"
  | unknownId id count => s!"index out of bounds: {id} >= {count}"
  | outOfBounds position length =>
    s!"index {position} out of bounds for length {length}"
  | levelLimit => "value out of range: number of tries must be in 1..=127"
  | emptySuffix => "value out of range: empty suffix in tail"
  | undefinedCode word => s!"undefined configuration code: {hexText word.toNat}"
  | keyTooLong => "size limit exceeded: key longer than u32::MAX bytes"
  | tooManyKeys => "size limit exceeded: more than u32::MAX keys"
  | tooManyBits => "size limit exceeded: bitvector longer than u32::MAX bits"
  | tailTooLong => "size limit exceeded: tail longer than u32::MAX bytes"
  | lengthLimit => "size limit exceeded: flat vector length exceeds address space"
  | streamEnd => "I/O error: failed to fill whole buffer"
  | sinkFull => "I/O error: failed to write whole buffer"
  | noSuchFile => "I/O error: No such file or directory (os error 2)"
  | malformed reason => "invalid format: " ++ reason.message
  | corrupt => "invalid state: the dictionary's parts do not fit together"

end Lexicon
