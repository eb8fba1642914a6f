/-
Lexicon.Arithmetic — counting digits, sums and blocks.
-/

namespace Lexicon

/-- The number of binary digits of a number, none for zero. -/
def bitLength (n : Nat) : Nat :=
  if n = 0 then 0 else n.log2 + 1

/-- The sum of some numbers. -/
def sumOf (numbers : List Nat) : Nat :=
  numbers.foldr (· + ·) 0

/-- How many blocks of the given width hold `n` items. -/
def blocksOf (width n : Nat) : Nat :=
  (n + (width - 1)) / width

end Lexicon
