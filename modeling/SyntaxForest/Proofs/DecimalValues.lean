import Mathlib.Algebra.Order.Field.Rat
import Mathlib.Tactic.Ring
import SyntaxForest.Proofs.Numerals
import SyntaxForest.Proofs.Scaling

/-!
# Decimals are rounded by their values

A number can be written as a decimal in many ways: zeros at the end of the digits can be traded for
powers of ten.  The number that is nearest to a decimal depends on its value alone
(`Binary64.ofDecimal_congr`).  `Decimal.ofDigits` is the form in which values are compared here: it
does not matter how many zeros stand behind its digits.

A decimal far outside the range is settled without its ratio.  Rounding the ratio would have the
same outcome (`Binary64.ofDecimal_eq_ofRatio`), so that there is one case left: ratios of the same
value are rounded alike, since rounding is not changed by a common factor
(`Binary64.nearest_congr`).
-/

namespace SyntaxForest

/-! ## Values -/

namespace Decimal

/-- The value of a decimal. -/
def value (d : Decimal) : ℚ := d.significand * 10 ^ d.exponent

/-- The numerator and the denominator of a decimal. -/
def ratio (d : Decimal) : Nat × Nat :=
  match d.exponent with
  | .ofNat e => (d.significand * 10 ^ e, 1)
  | .negSucc e => (d.significand, 10 ^ (e + 1))

theorem ratio_pos (d : Decimal) : 0 < d.ratio.2 := by
  unfold ratio
  split
  · exact Nat.one_pos
  · exact Nat.pow_pos (by decide)

theorem value_eq_ratio (d : Decimal) : d.value = (d.ratio.1 : ℚ) / d.ratio.2 := by
  obtain ⟨significand, e | e⟩ := d
  · simp [value, ratio]
  · simp [value, ratio, zpow_negSucc, div_eq_mul_inv]

/-- Decimals of one value have the same ratio. -/
theorem ratio_mul_eq {d e : Decimal} (same : d.value = e.value) :
    d.ratio.1 * e.ratio.2 = e.ratio.1 * d.ratio.2 := by
  have hd : (d.ratio.2 : ℚ) ≠ 0 := Nat.cast_ne_zero.mpr d.ratio_pos.ne'
  have he : (e.ratio.2 : ℚ) ≠ 0 := Nat.cast_ne_zero.mpr e.ratio_pos.ne'
  rw [value_eq_ratio, value_eq_ratio, div_eq_div_iff hd he] at same
  exact_mod_cast same

/-! ## Digits -/

/-- Digits behind others. -/
theorem natOfDigits_append (ds es : List Char) :
    natOfDigits (ds ++ es) = 10 ^ es.length * natOfDigits ds + natOfDigits es :=
  calc natOfDigits (ds ++ es)
    _ = Nat.ofDigitChars 10 es (Nat.ofDigitChars 10 ds 0) := Nat.ofDigitChars_append 0
    _ = _ := Nat.ofDigitChars_eq_ofDigitChars_zero

theorem natOfDigits_zeros (n : Nat) : natOfDigits (List.replicate n '0') = 0 := by
  induction n with
  | zero => rfl
  | succ n ih =>
    rw [List.replicate_succ, ← List.singleton_append, natOfDigits_append, ih]
    rfl

/-- The decimal with some digits, the first of which counts a power of ten. -/
def ofDigits (digits : List Char) (lead : Int) : Decimal :=
  ⟨natOfDigits digits, lead + 1 - digits.length⟩

/-- Zeros behind the digits do not count. -/
theorem value_ofDigits_append_zeros (digits : List Char) (n : Nat) (lead : Int) :
    (ofDigits (digits ++ List.replicate n '0') lead).value = (ofDigits digits lead).value := by
  have ten : (10 : ℚ) ≠ 0 := by norm_num
  have exponent : lead + 1 - digits.length = n + (lead + 1 - (digits.length + n)) := by omega
  simp only [ofDigits, value, natOfDigits_append, natOfDigits_zeros, List.length_append,
    List.length_replicate]
  push_cast
  rw [exponent, zpow_add₀ ten, zpow_natCast]
  ring

/-- Zeros before the digits only move them. -/
theorem ofDigits_zeros_append (digits : List Char) (n : Nat) (lead : Int) :
    ofDigits (List.replicate n '0' ++ digits) lead = ofDigits digits (lead - n) := by
  simp only [ofDigits, natOfDigits_append, natOfDigits_zeros, List.length_append,
    List.length_replicate]
  congr 1
  · omega
  · push_cast
    omega

/-- Behind its significant digits, a decimal has zeros only. -/
theorem exists_digitsOf_eq (d : Decimal) :
    ∃ n, digitsOf d.significand = d.scientific.1 ++ List.replicate n '0' := by
  have zeros : ∀ c ∈ (digitsOf d.significand).reverse.takeWhile (· == '0'), c = '0' :=
    fun c hc => eq_of_beq (List.mem_takeWhile_imp (p := (· == '0')) hc)
  have split := List.takeWhile_append_dropWhile (p := (· == '0'))
    (l := (digitsOf d.significand).reverse)
  rw [List.eq_replicate_of_mem zeros] at split
  have behind := congrArg List.reverse split
  rw [List.reverse_append, List.reverse_replicate, List.reverse_reverse] at behind
  exact ⟨_, behind.symm⟩

/-- The significant digits of a decimal have its value. -/
theorem value_scientific (d : Decimal) :
    (ofDigits d.scientific.1 d.scientific.2).value = d.value := by
  obtain ⟨n, digits⟩ := d.exists_digitsOf_eq
  have exponent : d.scientific.2 + 1 - (digitsOf d.significand).length = d.exponent := by
    simp only [scientific]
    omega
  rw [← value_ofDigits_append_zeros _ n, ← digits, ofDigits, exponent, Json.natOfDigits_digitsOf]

theorem ofParts_eq (whole fraction : List Char) (exponent : Int) : ofParts whole fraction exponent =
    ofDigits (whole ++ fraction) (exponent + whole.length - 1) := by
  rw [ofParts, ofDigits, List.length_append]
  congr 1
  · exact (List.foldl_append ..).symm
  · push_cast
    omega

end Decimal

namespace Binary64

/-! ## Ratios -/

theorem roundHalfEven_mul_mul (num den : Nat) {k : Nat} (h : 0 < k) :
    roundHalfEven (num * k) (den * k) = roundHalfEven num den := by
  have double : 2 * (num % den * k) = 2 * (num % den) * k := (Nat.mul_assoc ..).symm
  simp only [roundHalfEven, Nat.mul_div_mul_right _ _ h, Nat.mul_mod_mul_right, double,
    Nat.mul_lt_mul_right h]

/-- A common factor does not change what a ratio is rounded to. -/
theorem nearest_mul_mul (num den : Nat) {k : Nat} (h : 0 < k) :
    nearest (num * k) (den * k) = nearest num den := by
  unfold nearest
  simp only
  rw [Nat.mul_right_comm num k, Nat.mul_div_mul_right _ _ h, Nat.mul_right_comm den k,
    roundHalfEven_mul_mul _ _ h]

/-- Ratios of one value are rounded alike. -/
theorem nearest_congr {num den num' den' : Nat} (h : 0 < den) (h' : 0 < den')
    (same : num * den' = num' * den) : nearest num den = nearest num' den' :=
  calc nearest num den
    _ = nearest (num * den') (den * den') := (nearest_mul_mul _ _ h').symm
    _ = nearest (num' * den) (den' * den) := by rw [same, Nat.mul_comm den]
    _ = nearest num' den' := nearest_mul_mul _ _ h

/-! ## Far outside the range -/

/-- A power of ten has three binary digits at least for each of its zeros. -/
theorem two_pow_le_ten_pow {m e : Nat} (h : m ≤ 3 * e) : 2 ^ m ≤ 10 ^ e :=
  calc 2 ^ m
    _ ≤ 2 ^ (3 * e) := Nat.pow_le_pow_right (by decide) h
    _ = 8 ^ e := Nat.pow_mul 2 3 e
    _ ≤ 10 ^ e := Nat.pow_le_pow_left (by decide) e

/-- A ratio of less than a quarter of a unit is rounded to zero. -/
theorem nearest_eq_zero {num den : Nat} (h : num * 2 ^ 1076 < den) : nearest num den = 0 := by
  have small : 2 * (num * 2 ^ 1074) < den := by omega
  have floor : num * 2 ^ 1074 / den = 0 := Nat.div_eq_of_lt (by omega)
  have rest : num * 2 ^ 1074 % den = num * 2 ^ 1074 := Nat.mod_eq_of_lt (by omega)
  unfold nearest
  simp only [floor, Nat.log2_zero, Nat.zero_sub, Nat.zero_mul, Nat.zero_add, Nat.pow_zero,
    Nat.mul_one, roundHalfEven, rest, small, if_true, Nat.min_zero]

/-- What is not below the first power of two that is too great is rounded to infinity. -/
theorem nearest_eq_infinity {n : Nat} (h : 2 ^ 1024 ≤ n) : nearest n 1 = infinity :=
  Nat.le_antisymm (Nat.min_le_left _ _) (le_nearest_of_le (by decide) h)

/-- **A decimal is rounded as the ratio that it is**, also where its exponent settles it. -/
theorem ofDecimal_eq_ofRatio (negative : Bool) (d : Decimal) :
    ofDecimal negative d = ofRatio negative d.ratio.1 d.ratio.2 := by
  obtain ⟨significand, exponent⟩ := d
  by_cases zero : significand = 0
  · have nothing (den : Nat) (h : 0 < den) : nearest 0 den = 0 :=
      nearest_eq_zero (by simpa only [Nat.zero_mul] using h)
    rw [ofDecimal, if_pos zero, ofRatio]
    cases exponent <;> simp [Decimal.ratio, zero, nothing]
  · rw [ofDecimal, if_neg zero]
    cases exponent with
    | ofNat e =>
      dsimp only [Decimal.ratio]
      split
      · next great =>
        have power : 2 ^ 1024 ≤ significand * 10 ^ e :=
          calc 2 ^ 1024
            _ ≤ 10 ^ e := two_pow_le_ten_pow (by omega)
            _ ≤ significand * 10 ^ e := Nat.le_mul_of_pos_left _ (Nat.pos_of_ne_zero zero)
        rw [ofRatio, nearest_eq_infinity power]
      · rfl
    | negSucc e =>
      dsimp only [Decimal.ratio]
      split
      · next small =>
        have power : significand * 2 ^ 1076 < 10 ^ (e + 1) :=
          calc significand * 2 ^ 1076
            _ < 2 ^ (significand.log2 + 1) * 2 ^ 1076 :=
              Nat.mul_lt_mul_of_pos_right Nat.lt_log2_self (Nat.two_pow_pos _)
            _ = 2 ^ (significand.log2 + 1077) := (Nat.pow_add 2 _ 1076).symm
            _ ≤ 10 ^ (e + 1) := two_pow_le_ten_pow small
        rw [ofRatio, nearest_eq_zero power]
      · rfl

/-- **The number nearest to a decimal depends on the value of the decimal alone.** -/
theorem ofDecimal_congr (negative : Bool) {d e : Decimal} (same : d.value = e.value) :
    ofDecimal negative d = ofDecimal negative e := by
  rw [ofDecimal_eq_ofRatio, ofDecimal_eq_ofRatio, ofRatio, ofRatio,
    nearest_congr d.ratio_pos e.ratio_pos (Decimal.ratio_mul_eq same)]

end Binary64

end SyntaxForest
