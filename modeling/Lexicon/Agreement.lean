/-
Lexicon.Agreement — comparing a stored string with the rest of a query.

A stored string is read byte by byte and compared with what is left of a query
until the string ends, the query ends, or two bytes differ. One way to compare
wants the whole string and copies nothing. The other copies the bytes that agree,
and where the query ends inside the string it copies the rest of it and succeeds.
What a comparison comes to is an `Agreement`; `copies` says which way it went.
-/

namespace Lexicon

/-- How far a stored string agrees with the rest of a query. -/
structure Agreement where
  /-- Whether the comparison succeeds. -/
  fits : Bool
  /-- The number of bytes that agree; the position in the query moves on by so many. -/
  used : Nat
  /-- The bytes that are copied. -/
  copied : List UInt8
  deriving DecidableEq, Repr

namespace Agreement

/-- No byte agrees. -/
def apart : Agreement := ⟨false, 0, []⟩

/-- The given bytes agree. -/
def passed (copies : Bool) (bytes : List UInt8) : Agreement :=
  ⟨true, bytes.length, if copies then bytes else []⟩

/-- An agreement and another one behind it. -/
def before (first next : Agreement) : Agreement :=
  ⟨next.fits, first.used + next.used, first.copied ++ next.copied⟩

/-- The query has ended, and the given bytes of the string are copied. -/
def complete (first : Agreement) (more : List UInt8) : Agreement :=
  { first with copied := first.copied ++ more }

/-- The query has ended or goes on differently. -/
def fail (first : Agreement) : Agreement :=
  { first with fits := false }

end Agreement

end Lexicon
