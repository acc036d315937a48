/-!
# Decimals

A decimal is a natural number of some power of ten.  It is what a number token denotes before it is
rounded, and what the digits of a rounded number denote again.
-/

namespace SyntaxForest

/-- The number `significand * 10 ^ exponent`. -/
structure Decimal where
  significand : Nat
  exponent : Int
  deriving DecidableEq, Repr, Inhabited

namespace Decimal

/-- Whether a character is one of the ten ASCII digits. -/
def isDigit (c : Char) : Bool := '0' ≤ c && c ≤ '9'

/-- The number a run of digits denotes, most significant digit first, after a number `high` has
been read already. -/
def readDigits (high : Nat) (digits : List Char) : Nat :=
  digits.foldl (fun n c => 10 * n + (c.toNat - '0'.toNat)) high

/-- The number a run of digits denotes. -/
def natOfDigits (digits : List Char) : Nat := readDigits 0 digits

/-- The digits of a number, most significant first; zero has the one digit `0`. -/
def digitsOf (n : Nat) : List Char := Nat.toDigits 10 n

/-- The decimal of a token with the given integer digits, fraction digits and exponent. -/
def ofParts (whole fraction : List Char) (exponent : Int) : Decimal :=
  ⟨readDigits (natOfDigits whole) fraction, exponent - fraction.length⟩

/-- The significant digits of a decimal: those of its significand without the zeros at the end,
and the power of ten that the first of them counts. -/
def scientific (d : Decimal) : List Char × Int :=
  let digits := digitsOf d.significand
  ((digits.reverse.dropWhile (· == '0')).reverse, d.exponent + digits.length - 1)

end Decimal

end SyntaxForest
