import SyntaxForest.Numeric.Shortest

/-!
# Layout of floating-point numbers

How the digits of a number are set out as text: with a point among them (`100.0`, `0.001`), or with
one digit before the point and a power of ten behind (`1.5e+21`).  What differs between the places
that write numbers is one record, `Layout`.
-/

namespace SyntaxForest

/-- The decisions of a number format. -/
structure Layout where
  /-- The least power of ten of a first digit that is still written with a point among the digits;
  the greatest is 15. -/
  least : Int
  /-- What stands before a power of ten that is not negative. -/
  plus : List Char
  /-- The choice between two equally near decimals. -/
  tie : Binary64.Tie

namespace Layout

/-- Digits with a point among or before them, or zeros and a point behind. -/
def positional (digits : List Char) (lead : Int) : List Char :=
  match lead with
  | .ofNat k =>
    let whole := digits.take (k + 1)
    let fraction := digits.drop (k + 1)
    whole ++ List.replicate (k + 1 - whole.length) '0' ++ '.' ::
      (if fraction.isEmpty then ['0'] else fraction)
  | .negSucc k => '0' :: '.' :: List.replicate k '0' ++ digits

/-- Digits with a point behind the first, and a power of ten. -/
def exponential (l : Layout) (digits : List Char) (lead : Int) : List Char :=
  let mantissa := match digits with
    | [] => []
    | [d] => [d]
    | d :: rest => d :: '.' :: rest
  let power := match lead with
    | .ofNat k => l.plus ++ Decimal.digitsOf k
    | .negSucc k => '-' :: Decimal.digitsOf (k + 1)
  mantissa ++ 'e' :: power

/-- The text of a decimal. -/
def decimal (l : Layout) (d : Decimal) : List Char :=
  if d.significand = 0 then ['0', '.', '0']
  else
    let (digits, lead) := d.scientific
    if l.least ≤ lead ∧ lead < 16 then positional digits lead
    else l.exponential digits lead

/-- The text of a finite number. -/
def finite (l : Layout) (x : Binary64) : List Char :=
  (if x.isNegative then ['-'] else []) ++ l.decimal (x.shortest l.tie)

end Layout

end SyntaxForest
