/-
Lexicon.Weight — the weights of keys and their sums.

A `Weight` is a number in the IEEE 754 binary32 format, kept as its bits. Sums
are taken in binary64: a `Total` is a NaN, an infinity, or a signed whole number
of units, the unit being the smallest positive weight, 2^-149. Every weight and
every sum of weights is such a number, so an addition is exact in the integers
and then rounded once to 53 significant bits, ties going to the even neighbour.
`Total.weight` rounds a sum to the 24 bits of a weight.

Weights are compared in two ways: `Weight.key` orders all of them, negative zero
below zero and a NaN beyond the infinity of its sign, while `Weight.exceeds` is
the numeric comparison, which finds zeros equal and never holds of a NaN.
-/
import Lexicon.Arithmetic

namespace Lexicon

/-- A binary32 number. -/
structure Weight where
  bits : UInt32
  deriving DecidableEq, Inhabited, Repr

/-- A sum of weights: a binary64 number that is a multiple of 2^-149. -/
inductive Total
  /-- Not a number; `bits` are those of the weight it rounds to. -/
  | nan (bits : UInt32)
  | infinite (negative : Bool)
  | finite (negative : Bool) (units : Nat)
  deriving DecidableEq, Repr

namespace Weight

/-- The number one. -/
def one : Weight := ⟨0x3F800000⟩

/-- The smallest positive weight with a full significand. -/
def minNormal : Weight := ⟨0x00800000⟩

/-- Whether the sign bit is set. -/
def negative (w : Weight) : Bool :=
  0x80000000 ≤ w.bits.toNat

/-- The bits without the sign bit. -/
def magnitude (w : Weight) : Nat :=
  w.bits.toNat % 0x80000000

/-- Whether the bits are those of a NaN. -/
def isNaN (w : Weight) : Bool :=
  0x7F800000 < w.magnitude

/-- The number of units of a finite weight of the given magnitude. -/
def unitsOf (magnitude : Nat) : Nat :=
  let fraction := magnitude % 0x800000
  let exponent := magnitude / 0x800000
  if exponent = 0 then fraction else (0x800000 + fraction) <<< (exponent - 1)

/-- The weight as a sum of one term; a NaN becomes quiet. -/
def total (w : Weight) : Total :=
  if w.isNaN then .nan (w.bits ||| 0x00400000)
  else if w.magnitude = 0x7F800000 then .infinite w.negative
  else .finite w.negative (unitsOf w.magnitude)

/-- Places a weight in the total order. -/
def key (w : Weight) : Int :=
  if w.negative then -(w.magnitude : Int) - 1 else w.magnitude

/-- The value of a weight that is not a NaN, on a scale that keeps the numeric order. -/
def level (w : Weight) : Int :=
  if w.negative then -(w.magnitude : Int) else w.magnitude

/-- Whether a weight is numerically greater than another. -/
def exceeds (a b : Weight) : Bool :=
  !a.isNaN && !b.isNaN && decide (b.level < a.level)

end Weight

namespace Total

/-- The sum of no weights. -/
def zero : Total := .finite false 0

/-- A number rounded to so many significant bits, ties to the even neighbour. -/
def roundTo (digits n : Nat) : Nat :=
  let length := bitLength n
  if length ≤ digits then n
  else
    let dropped := length - digits
    let kept := n >>> dropped
    let rest := n % (1 <<< dropped)
    let half := 1 <<< (dropped - 1)
    let up := half < rest ∨ (rest = half ∧ kept % 2 = 1)
    (if up then kept + 1 else kept) <<< dropped

/-- The sum of two totals, rounded to 53 significant bits.

Of two NaNs the first is kept; infinities of both signs give the default NaN. -/
def add : Total → Total → Total
  | .nan bits, _ => .nan bits
  | _, .nan bits => .nan bits
  | .infinite a, .infinite b => if a = b then .infinite a else .nan 0xFFC00000
  | .infinite a, .finite .. => .infinite a
  | .finite .., .infinite b => .infinite b
  | .finite a m, .finite b n =>
    if a = b then .finite a (roundTo 53 (m + n))
    else if n < m then .finite a (roundTo 53 (m - n))
    else if m < n then .finite b (roundTo 53 (n - m))
    else .finite false 0

/-- The bits of a weight of so many units, at most 24 significant bits of them. -/
def magnitudeOf (units : Nat) : Nat :=
  if units < 0x800000 then units
  else
    let exponent := bitLength units - 23
    exponent * 0x800000 + ((units >>> (exponent - 1)) - 0x800000)

/-- The bits of a sign and a magnitude. -/
def signed (negative : Bool) (magnitude : Nat) : Weight :=
  ⟨(if negative then 0x80000000 else 0) ||| magnitude.toUInt32⟩

/-- The weight nearest to a total, an infinity if it is beyond all weights. -/
def weight : Total → Weight
  | .nan bits => ⟨bits⟩
  | .infinite negative => signed negative 0x7F800000
  | .finite negative units =>
    let rounded := roundTo 24 units
    if rounded < 1 <<< 277 then signed negative (magnitudeOf rounded)
    else signed negative 0x7F800000

/-- The sum of a list of weights, added from left to right to a given start. -/
def sum (start : Total) (weights : List Weight) : Total :=
  weights.foldl (fun t w => t.add w.total) start

end Total

end Lexicon
