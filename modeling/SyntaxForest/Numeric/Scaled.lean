import SyntaxForest.Numeric.Binary64

/-!
# Numbers scaled by powers of ten

A quick way from a decimal to a number: round its significand, and multiply or divide the result by
a power of ten, which is rounded itself.  Every step rounds, so the outcome is near the decimal and
need not be the number nearest to it, which is `Binary64.ofDecimal`.

The greatest power of ten among the numbers is `10 ^ 308`.  A multiplication by more than that is
refused; a division by more is done in several steps, each rounding again.
-/

namespace SyntaxForest

namespace Binary64

/-! ## Products and quotients -/

/-- The number nearest to the product of two finite numbers. -/
def mul (x y : Binary64) : Binary64 :=
  ofRatio (x.isNegative != y.isNegative) (x.units * y.units) (2 ^ 1074 * 2 ^ 1074)

/-- The number nearest to the quotient of two finite numbers, of which the second is not zero. -/
def div (x y : Binary64) : Binary64 :=
  ofRatio (x.isNegative != y.isNegative) x.units y.units

/-! ## Powers of ten -/

/-- The exponent of the greatest power of ten that is a finite number after rounding. -/
def greatestPower : Nat := 308

/-- The number nearest to a power of ten. -/
def powerOfTen (e : Nat) : Binary64 := ofRatio false (10 ^ e) 1

/-- A number divided by the greatest power of ten, a number of times.  Nothing is left to divide
once it has come to zero. -/
def lower (x : Binary64) : Nat → Binary64
  | 0 => x
  | times + 1 => if x.units = 0 then x else (x.div (powerOfTen greatestPower)).lower times

/-- A number scaled by a power of ten, if the result is finite. -/
def scale? (x : Binary64) : Int → Option Binary64
  | .ofNat e =>
    if e ≤ greatestPower then some (x.mul (powerOfTen e)) |>.filter (·.isFinite)
    else if x.units = 0 then some x
    else none
  | .negSucc e =>
    some ((x.lower (e / greatestPower)).div (powerOfTen (e % greatestPower + 1)))

end Binary64

end SyntaxForest
