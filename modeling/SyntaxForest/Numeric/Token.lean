import SyntaxForest.Numeric.Binary64

/-!
# Reading number tokens

The integers and decimals that a token of source text can denote.  A token is read as a whole:
nothing may be left over, and blanks are for the caller to take away.
-/

namespace SyntaxForest

namespace NumberToken

/-- Whether a minus sign stands in front, and what follows the sign; a plus sign may stand there
instead, or nothing. -/
def sign : List Char → Bool × List Char
  | '-' :: rest => (true, rest)
  | '+' :: rest => (false, rest)
  | rest => (false, rest)

/-- The integer of a token that is an optional sign and at least one digit. -/
def int? (cs : List Char) : Option Int :=
  let (negative, digits) := sign cs
  if digits.isEmpty || !digits.all Decimal.isDigit then none
  else
    let n : Int := Decimal.natOfDigits digits
    some (if negative then -n else n)

/-- The integer of a token, if it is a signed 32-bit number. -/
def int32? (cs : List Char) : Option Int :=
  (int? cs).filter fun n => -2 ^ 31 ≤ n && n < 2 ^ 31

/-- The power of ten behind the digits of a token: none at all, or `e` and an integer. -/
def exponent? : List Char → Option Int
  | [] => some 0
  | c :: rest => if c == 'e' || c == 'E' then int? rest else none

/-- The decimal of a token without sign.  Digits may be missing before the point or behind it, but
not both. -/
def decimal? (cs : List Char) : Option Decimal :=
  let whole := cs.takeWhile Decimal.isDigit
  let rest := cs.dropWhile Decimal.isDigit
  let (fraction, rest) := match rest with
    | '.' :: rest => (rest.takeWhile Decimal.isDigit, rest.dropWhile Decimal.isDigit)
    | rest => ([], rest)
  if whole.isEmpty && fraction.isEmpty then none
  else (exponent? rest).map (Decimal.ofParts whole fraction)

/-- The number of a token, rounded to the nearest: a decimal, an infinity or a not-number by name
in letters of either case, all with an optional sign. -/
def binary64? (cs : List Char) : Option Binary64 :=
  let (negative, rest) := sign cs
  let letters := rest.map Char.toLower
  if letters == "inf".toList || letters == "infinity".toList then
    some (.ofMagnitude negative Binary64.infinity)
  else if letters == "nan".toList then some (.ofMagnitude negative (Binary64.infinity + 2 ^ 51))
  else (decimal? rest).map (.ofDecimal negative)

end NumberToken

end SyntaxForest
