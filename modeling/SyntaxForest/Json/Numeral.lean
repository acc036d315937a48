import SyntaxForest.Json.Basic
import SyntaxForest.Numeric.Scaled

/-!
# Numbers in JSON

A number as it is written, and what it denotes.  Integers are exact.  Floats are read in steps that
fit 64 bits: as many digits as make an integer below `2 ^ 64` are rounded to a float, and this is
scaled by the power of ten that the point, the power and the digits left out amount to
(`Binary64.scale?`).  The float read may thus be a neighbour of the one nearest to the decimal.
-/

namespace SyntaxForest

namespace Json

/-- A number as it is written: its sign, its digits before the point and behind it, and its power
of ten. -/
structure Numeral where
  negative : Bool
  whole : List Char
  fraction : Option (List Char)
  power : Option Int
  deriving DecidableEq, Repr, Inhabited

namespace Numeral

/-- The integer of a number written without point and power.  Minus zero is no integer. -/
def int? (n : Numeral) : Option Int :=
  match n.fraction, n.power with
  | none, none =>
    match n.negative, Decimal.natOfDigits n.whole with
    | false, magnitude => some magnitude
    | true, 0 => none
    | true, magnitude + 1 => some (.negSucc magnitude)
  | _, _ => none

/-- Digits put behind a number for as long as it stays below `2 ^ 64`, with the count of those that
were put there.  From the first that does not fit, all are left out. -/
def extend (high : Nat) : List Char → Nat × Nat
  | [] => (high, 0)
  | c :: cs =>
    let next := Decimal.readDigits high [c]
    if next < 2 ^ 64 then
      let (result, count) := extend next cs
      (result, count + 1)
    else (high, 0)

/-- The significand of a float and the power of ten that goes with it.  A digit left out before the
point counts a power; a digit taken behind it takes one away. -/
def parts (n : Numeral) : Nat × Int :=
  let fraction := n.fraction.getD []
  let (head, taken) := extend 0 n.whole
  let (significand, behind) := extend head fraction
  (significand, n.power.getD 0 + (n.whole.length - taken : Nat) - behind)

/-- The float of a number; one beyond the range of the floats is refused. -/
def float? (n : Numeral) : Option Binary64 :=
  let (significand, power) := n.parts
  (Binary64.ofRatio n.negative significand 1).scale? power

/-- The number as a value: an integer if it is written as one and fits 64 bits, signed or
unsigned, and a float otherwise. -/
def value? (n : Numeral) : Option Json :=
  match n.int?.filter fun i => -2 ^ 63 ≤ i && i < 2 ^ 64 with
  | some i => some (.int i)
  | none => n.float?.map .float

/-- With the digits that are put behind it, a number stays below `2 ^ 64`. -/
theorem extend_lt {high : Nat} (h : high < 2 ^ 64) (digits : List Char) :
    (extend high digits).1 < 2 ^ 64 := by
  induction digits generalizing high with
  | nil => exact h
  | cons c cs ih =>
    unfold extend
    simp only
    split
    · next fits => exact ih fits
    · exact h

end Numeral

end Json

end SyntaxForest
