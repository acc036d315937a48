import SyntaxForest.Numeric.Decimal

/-!
# Binary floating-point numbers of 64 bits

A number is its bit pattern; nothing here computes with machine floats.  Every finite number is a
natural number of units `2 ^ -1074`, up to its sign (`Binary64.units`), so decoding and rounding
are exact arithmetic on natural numbers.

Rounding a ratio to the nearest number (`Binary64.nearest`, halves to the even neighbour) rests on
one observation: with the significand `m` and the number `p` of doublings of the unit, the bit
pattern of the magnitude is `p * 2 ^ 52 + m`.  This holds for subnormal numbers, for normal ones,
and for a significand that rounding has carried to `2 ^ 53`.
-/

-- A power is the core library's, also where an algebraic hierarchy has one of its own.
attribute [instance (high + 1), default_instance (high + 1)] instPowNat

namespace SyntaxForest

/-- A 64-bit floating-point number, as its bit pattern. -/
structure Binary64 where
  bits : UInt64
  deriving DecidableEq, Repr

namespace Binary64

/-- Positive zero. -/
def zero : Binary64 := ⟨0⟩

instance : Inhabited Binary64 := ⟨zero⟩

/-- The bit pattern without the sign. -/
def magnitude (x : Binary64) : Nat := x.bits.toNat % 2 ^ 63

/-- Whether the sign bit is set; the zeros, infinities and not-numbers carry it too. -/
def isNegative (x : Binary64) : Bool := 2 ^ 63 ≤ x.bits.toNat

/-- The magnitude of the two infinities.  Smaller magnitudes are finite numbers, in their order;
larger ones are not numbers. -/
def infinity : Nat := 2047 * 2 ^ 52

/-- Whether `x` is neither infinite nor a not-number. -/
def isFinite (x : Binary64) : Bool := x.magnitude < infinity

/-- Whether `x` is a not-number, whatever its payload. -/
def isNaN (x : Binary64) : Bool := infinity < x.magnitude

/-- The number of units `2 ^ -1074` in a finite number, its sign left out. -/
def units (x : Binary64) : Nat :=
  let exponent := x.magnitude / 2 ^ 52
  let fraction := x.magnitude % 2 ^ 52
  if exponent = 0 then fraction else (2 ^ 52 + fraction) * 2 ^ (exponent - 1)

/-- The number with a given sign and magnitude. -/
def ofMagnitude (negative : Bool) (magnitude : Nat) : Binary64 :=
  ⟨UInt64.ofNat ((if negative then 2 ^ 63 else 0) + magnitude)⟩

/-- Equality of numbers as the standard has it: a not-number differs from everything, itself
included, and the two zeros are equal. -/
def sameNumber (x y : Binary64) : Bool :=
  !x.isNaN && !y.isNaN && (x == y || x.magnitude == 0 && y.magnitude == 0)

/-! ## Rounding -/

/-- The natural number nearest to `num / den`, halves to the even neighbour. -/
def roundHalfEven (num den : Nat) : Nat :=
  let floor := num / den
  let double := 2 * (num % den)
  if double < den then floor
  else if den < double then floor + 1
  else floor + floor % 2

/-- The magnitude nearest to `num / den`, halves to the even neighbour; infinite from half a step
above the largest finite number on. -/
def nearest (num den : Nat) : Nat :=
  let scaled := num * 2 ^ 1074
  let doublings := (scaled / den).log2 - 52
  min infinity (doublings * 2 ^ 52 + roundHalfEven scaled (den * 2 ^ doublings))

/-- The number nearest to `num / den` under a sign. -/
def ofRatio (negative : Bool) (num den : Nat) : Binary64 :=
  ofMagnitude negative (nearest num den)

/-- The number nearest to a decimal under a sign.  A decimal far outside the range of the numbers
is settled by its exponent alone, so that no power of ten larger than its digits warrant is
computed. -/
def ofDecimal (negative : Bool) (d : Decimal) : Binary64 :=
  if d.significand = 0 then ofMagnitude negative 0
  else match d.exponent with
    | .ofNat e =>
      if 400 < e then ofMagnitude negative infinity
      else ofRatio negative (d.significand * 10 ^ e) 1
    | .negSucc e =>
      if d.significand.log2 + 1077 ≤ 3 * (e + 1) then ofMagnitude negative 0
      else ofRatio negative d.significand (10 ^ (e + 1))

/-- The number nearest to an integer. -/
def ofInt (n : Int) : Binary64 := ofRatio (n < 0) n.natAbs 1

/-! ## Exactness

A number that is already there is not rounded: a ratio, and a decimal, of exactly the value of a
number is read as that number.
-/

/-- A quotient without remainder is not rounded. -/
theorem roundHalfEven_mul (n : Nat) {d : Nat} (h : 0 < d) : roundHalfEven (n * d) d = n := by
  simp [roundHalfEven, Nat.mul_div_cancel n h, h]

/-- Only the two zeros have no units. -/
theorem units_eq_zero {x : Binary64} : x.units = 0 ↔ x.magnitude = 0 := by
  have whole := Nat.div_add_mod x.magnitude (2 ^ 52)
  unfold units
  simp only
  split
  · omega
  · have := Nat.two_pow_pos (x.magnitude / 2 ^ 52 - 1)
    constructor
    · intro h
      rcases Nat.mul_eq_zero.1 h with h | h <;> omega
    · intro h
      simp_all

/-- The number of units is a significand times a power of two, and those two make up the
magnitude. -/
theorem exists_units_eq (x : Binary64) :
    ∃ m, x.units = m * 2 ^ (x.units.log2 - 52) ∧
      (x.units.log2 - 52) * 2 ^ 52 + m = x.magnitude := by
  have whole := Nat.div_add_mod x.magnitude (2 ^ 52)
  have small := Nat.mod_lt x.magnitude (show 0 < 2 ^ 52 by decide)
  by_cases subnormal : x.magnitude / 2 ^ 52 = 0
  · have units : x.units = x.magnitude % 2 ^ 52 := by
      simp only [Binary64.units, subnormal, ↓reduceIte]
    have log : x.units.log2 - 52 = 0 := by
      by_cases zero : x.units = 0
      · simp [zero]
      · have := (Nat.log2_lt zero).2 (units ▸ small)
        omega
    refine ⟨x.units, by simp [log], ?_⟩
    rw [log, units, Nat.zero_mul, Nat.zero_add]
    exact Nat.mod_eq_of_lt (Nat.lt_of_div_eq_zero (by decide) subnormal)
  · obtain ⟨e, exponent⟩ := Nat.exists_eq_succ_of_ne_zero subnormal
    have units : x.units = (2 ^ 52 + x.magnitude % 2 ^ 52) * 2 ^ e := by
      simp only [Binary64.units, exponent, Nat.succ_ne_zero, ↓reduceIte, Nat.succ_sub_one]
    have positive := Nat.two_pow_pos e
    have log : x.units.log2 = 52 + e := by
      rw [Nat.log2_eq_iff (by rw [units]; exact Nat.ne_of_gt (Nat.mul_pos (by omega) positive)),
        units]
      constructor
      · rw [Nat.pow_add]
        exact Nat.mul_le_mul_right _ (by omega)
      · rw [Nat.add_right_comm, Nat.pow_add]
        exact Nat.mul_lt_mul_of_pos_right (by omega) positive
    refine ⟨2 ^ 52 + x.magnitude % 2 ^ 52, ?_, ?_⟩
    · rw [log, units, Nat.add_sub_cancel_left]
    · rw [log, Nat.add_sub_cancel_left]
      omega

/-- A ratio of a whole number of units, with the zeros at its end that its size asks for, has
nothing to round. -/
theorem nearest_eq_of_scaled {num den units m : Nat} (positive : 0 < den)
    (scaled : num * 2 ^ 1074 = units * den) (significand : units = m * 2 ^ (units.log2 - 52)) :
    nearest num den = min infinity ((units.log2 - 52) * 2 ^ 52 + m) := by
  have product : units * den = m * (den * 2 ^ (units.log2 - 52)) := by
    conv => lhs; rw [significand]
    rw [Nat.mul_assoc, Nat.mul_comm (2 ^ (units.log2 - 52))]
  unfold nearest
  simp only [scaled, Nat.mul_div_cancel _ positive]
  rw [product, roundHalfEven_mul m (Nat.mul_pos positive (Nat.two_pow_pos _))]

/-- Rounding is exact on the numbers themselves, however the ratio is written. -/
theorem nearest_units {x : Binary64} (finite : x.isFinite) {num den : Nat} (positive : 0 < den)
    (scaled : num * 2 ^ 1074 = x.units * den) : nearest num den = x.magnitude := by
  obtain ⟨m, units, magnitude⟩ := x.exists_units_eq
  have bound : x.magnitude < infinity := by simpa [isFinite] using finite
  rw [nearest_eq_of_scaled positive scaled units, magnitude]
  exact Nat.min_eq_right (Nat.le_of_lt bound)

/-- A number is its sign and its magnitude. -/
theorem ofMagnitude_magnitude (x : Binary64) : ofMagnitude x.isNegative x.magnitude = x := by
  have bound := x.bits.toNat_lt
  have bits : (if x.isNegative then 2 ^ 63 else 0) + x.magnitude = x.bits.toNat := by
    unfold isNegative magnitude
    by_cases negative : 2 ^ 63 ≤ x.bits.toNat
    · simp only [negative, decide_true, ↓reduceIte]
      omega
    · simp only [negative, decide_false, Bool.false_eq_true, ↓reduceIte]
      omega
  rw [ofMagnitude, bits, UInt64.ofNat_toNat]

/-- A decimal that equals a number reads as that number; the first condition says that its digits
are not settled by the exponent alone. -/
theorem ofDecimal_eq_of_value {x : Binary64} (finite : x.isFinite) {significand e : Nat}
    (nonzero : significand ≠ 0) (near : 3 * (e + 1) < significand.log2 + 1077)
    (value : significand * 2 ^ 1074 = x.units * 10 ^ (e + 1)) :
    ofDecimal x.isNegative ⟨significand, .negSucc e⟩ = x := by
  have digits : ofDecimal x.isNegative ⟨significand, .negSucc e⟩ =
      ofRatio x.isNegative significand (10 ^ (e + 1)) := by
    simp [ofDecimal, nonzero]
    omega
  rw [digits, ofRatio, nearest_units finite (Nat.pow_pos (by decide)) value,
    ofMagnitude_magnitude]

end Binary64

end SyntaxForest
