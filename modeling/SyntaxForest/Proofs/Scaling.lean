import SyntaxForest.Json.Numeral

/-!
# Scaled numbers are finite

A significand below `2 ^ 64` is far from the greatest number, and dividing by a power of ten does
not bring it closer, however the steps are rounded (`Binary64.magnitude_div_le`).  A multiplication
that leaves the range is refused.  So a number that is read from digits is finite
(`Json.Numeral.isFinite_of_float?`).
-/

namespace SyntaxForest

namespace Binary64

theorem roundHalfEven_le (num den : Nat) : roundHalfEven num den ≤ num / den + 1 := by
  unfold roundHalfEven
  simp only
  split
  · omega
  · split <;> omega

/-- Rounding adds no more than what the next power of two has. -/
theorem nearest_le {num den b : Nat} (wide : 53 ≤ b) (h : num * 2 ^ 1074 / den < 2 ^ b) :
    nearest num den ≤ (b - 51) * 2 ^ 52 := by
  unfold nearest
  simp only
  generalize num * 2 ^ 1074 = scaled at *
  generalize doublings : (scaled / den).log2 - 52 = d
  have few : d ≤ b - 53 := by
    by_cases zero : scaled / den = 0
    · rw [zero, Nat.log2_zero] at doublings
      omega
    · have := (Nat.log2_lt zero).mpr h
      omega
  have quotient : scaled / (den * 2 ^ d) < 2 ^ 53 := by
    rw [← Nat.div_div_eq_div_mul, Nat.div_lt_iff_lt_mul (Nat.two_pow_pos d), ← Nat.pow_add]
    refine Nat.lt_of_lt_of_le Nat.lt_log2_self (Nat.pow_le_pow_right (by decide) ?_)
    omega
  have rounded := roundHalfEven_le scaled (den * 2 ^ d)
  have scaledUp : d * 2 ^ 52 ≤ (b - 53) * 2 ^ 52 := Nat.mul_le_mul_right _ few
  omega

theorem le_roundHalfEven (num den : Nat) : num / den ≤ roundHalfEven num den := by
  unfold roundHalfEven
  simp only
  split
  · omega
  · split <;> omega

/-- Rounding does not go below a power of two. -/
theorem le_nearest {num den b : Nat} (wide : 52 ≤ b) (low : b ≤ 2098)
    (h : 2 ^ b ≤ num * 2 ^ 1074 / den) : (b - 51) * 2 ^ 52 ≤ nearest num den := by
  unfold nearest
  simp only
  generalize num * 2 ^ 1074 = scaled at *
  generalize doublings : (scaled / den).log2 - 52 = d
  have some : scaled / den ≠ 0 := Nat.ne_of_gt (Nat.lt_of_lt_of_le (Nat.two_pow_pos b) h)
  have log : b ≤ (scaled / den).log2 := (Nat.le_log2 some).mpr h
  have quotient : 2 ^ 52 ≤ scaled / (den * 2 ^ d) := by
    rw [← Nat.div_div_eq_div_mul, Nat.le_div_iff_mul_le (Nat.two_pow_pos d), ← Nat.pow_add,
      ← Nat.le_log2 some]
    omega
  refine Nat.le_min.mpr ⟨Nat.mul_le_mul_right (2 ^ 52) (by omega), ?_⟩
  calc (b - 51) * 2 ^ 52
    _ ≤ (d + 1) * 2 ^ 52 := Nat.mul_le_mul_right _ (by omega)
    _ = d * 2 ^ 52 + 2 ^ 52 := Nat.succ_mul ..
    _ ≤ _ := Nat.add_le_add_left (Nat.le_trans quotient (le_roundHalfEven _ _)) _

/-- A whole number below a power of two does not go beyond it when it is rounded. -/
theorem nearest_le_of_lt {k n : Nat} (h : n < 2 ^ k) :
    nearest n 1 ≤ (k + 1074 - 51) * 2 ^ 52 := by
  refine nearest_le (by omega) ?_
  rw [Nat.div_one, Nat.pow_add]
  exact Nat.mul_lt_mul_of_pos_right h (Nat.two_pow_pos 1074)

/-- A whole number from a power of two on does not go below it when it is rounded. -/
theorem le_nearest_of_le {k n : Nat} (low : k ≤ 1024) (h : 2 ^ k ≤ n) :
    (k + 1074 - 51) * 2 ^ 52 ≤ nearest n 1 := by
  refine le_nearest (by omega) (by omega) ?_
  rw [Nat.div_one, Nat.pow_add]
  exact Nat.mul_le_mul h (Nat.le_refl _)

theorem magnitude_ofRatio (negative : Bool) (num den : Nat) :
    (ofRatio negative num den).magnitude = nearest num den := by
  have bound : nearest num den ≤ infinity := Nat.min_le_left _ _
  rw [ofRatio, ofMagnitude, magnitude, infinity] at *
  cases negative <;> simp <;> omega

/-- A number up to a power of two has no more units than the power. -/
theorem units_le {x : Binary64} {b : Nat} (wide : 53 ≤ b) (h : x.magnitude ≤ (b - 51) * 2 ^ 52) :
    x.units ≤ 2 ^ b := by
  obtain ⟨e, rfl⟩ : ∃ e, b = e + 52 := ⟨b - 52, by omega⟩
  rw [show e + 52 - 51 = e + 1 by omega] at h
  have whole := Nat.div_add_mod x.magnitude (2 ^ 52)
  have small := Nat.mod_lt x.magnitude (show 0 < 2 ^ 52 by decide)
  unfold units
  simp only
  generalize x.magnitude / 2 ^ 52 = exponent at *
  generalize x.magnitude % 2 ^ 52 = fraction at *
  rcases exponent with _ | k
  · rw [if_pos rfl]
    exact Nat.le_trans (Nat.le_of_lt small) (Nat.pow_le_pow_right (by decide) (by omega))
  · rw [if_neg (Nat.succ_ne_zero k), Nat.add_sub_cancel]
    by_cases top : k = e
    · have none : fraction = 0 := by omega
      have power : (2 ^ 52 + fraction) * 2 ^ k = 2 ^ (e + 52) := by
        rw [top, none, Nat.add_zero, ← Nat.pow_add, Nat.add_comm]
      exact Nat.le_of_eq power
    · have below : k + 1 ≤ e := by omega
      calc (2 ^ 52 + fraction) * 2 ^ k
        _ ≤ 2 ^ 53 * 2 ^ k := Nat.mul_le_mul_right _ (by omega)
        _ = 2 ^ (k + 1 + 52) := by rw [← Nat.pow_add]; congr 1; omega
        _ ≤ 2 ^ (e + 52) := Nat.pow_le_pow_right (by decide) (by omega)

/-- A number from a power of two on has as many units as the power at least. -/
theorem le_units {x : Binary64} {b : Nat} (wide : 52 ≤ b) (h : (b - 51) * 2 ^ 52 ≤ x.magnitude) :
    2 ^ b ≤ x.units := by
  have high : b - 51 ≤ x.magnitude / 2 ^ 52 :=
    (Nat.le_div_iff_mul_le (Nat.two_pow_pos 52)).mpr h
  unfold units
  simp only
  generalize x.magnitude / 2 ^ 52 = exponent at *
  rw [if_neg (by omega)]
  calc 2 ^ b
    _ = 2 ^ 52 * 2 ^ (b - 52) := by rw [← Nat.pow_add]; congr 1; omega
    _ ≤ 2 ^ 52 * 2 ^ (exponent - 1) :=
      Nat.mul_le_mul_left _ (Nat.pow_le_pow_right (by decide) (by omega))
    _ ≤ _ := Nat.mul_le_mul_right _ (Nat.le_add_right _ _)

/-! ## Numbers that stay small -/

/-- A quotient by more than one stays below the power of two below which the dividend is. -/
theorem magnitude_div_le {x y : Binary64} {b : Nat} (wide : 53 ≤ b)
    (hx : x.magnitude ≤ (b - 51) * 2 ^ 52) (hy : 2 ^ 1074 < y.units) :
    (x.div y).magnitude ≤ (b - 51) * 2 ^ 52 := by
  rw [div, magnitude_ofRatio]
  refine nearest_le wide ?_
  rw [Nat.div_lt_iff_lt_mul (Nat.lt_trans (Nat.two_pow_pos _) hy)]
  exact Nat.mul_lt_mul_of_le_of_lt (units_le wide hx) hy (Nat.two_pow_pos _)

/-- The magnitude of `2 ^ 64`, which no significand reaches and no quotient leaves. -/
def small : Nat := (64 + 1074 - 51) * 2 ^ 52

theorem isFinite_of_le_small {x : Binary64} (h : x.magnitude ≤ small) : x.isFinite :=
  decide_eq_true (Nat.lt_of_le_of_lt h (by decide))

/-- A significand is small. -/
theorem magnitude_ofRatio_le (negative : Bool) {significand : Nat} (h : significand < 2 ^ 64) :
    (ofRatio negative significand 1).magnitude ≤ small := by
  rw [magnitude_ofRatio]
  exact nearest_le_of_lt h

/-- The powers of ten are more than one. -/
theorem lt_units_powerOfTen (e : Nat) : 2 ^ 1074 < (powerOfTen (e + 1)).units := by
  have ten : 2 ^ 1 ≤ 10 ^ (e + 1) :=
    Nat.le_trans (by decide) (Nat.pow_le_pow_right (by decide) (Nat.le_add_left 1 e))
  have magnitude := le_nearest_of_le (by decide) ten
  rw [← magnitude_ofRatio false] at magnitude
  have units := le_units (b := 1 + 1074) (by decide) magnitude
  have more (b : Nat) : 2 ^ b < 2 ^ (1 + b) := Nat.pow_lt_pow_right (by decide) (by omega)
  exact Nat.lt_of_lt_of_le (more 1074) units

theorem magnitude_lower_le {x : Binary64} (h : x.magnitude ≤ small) (times : Nat) :
    (x.lower times).magnitude ≤ small := by
  induction times generalizing x with
  | zero => exact h
  | succ times ih =>
    rw [lower]
    split
    · exact h
    · have power := lt_units_powerOfTen 307
      exact ih (magnitude_div_le (b := 64 + 1074) (by decide) h power)

/-- What becomes of a small number is finite, whatever power of ten it is scaled by. -/
theorem isFinite_of_scale? {x y : Binary64} (hx : x.magnitude ≤ small) {power : Int}
    (h : x.scale? power = some y) : y.isFinite := by
  unfold scale? at h
  split at h
  · split at h
    · exact (Option.filter_eq_some_iff.mp h).2
    · split at h
      · cases h
        exact isFinite_of_le_small hx
      · cases h
  · next e =>
    cases h
    have power := lt_units_powerOfTen (e % greatestPower)
    exact isFinite_of_le_small (magnitude_div_le (b := 64 + 1074) (by decide)
      (magnitude_lower_le hx _) power)

end Binary64

/-- **A float that is read is finite.** -/
theorem Json.Numeral.isFinite_of_float? {n : Numeral} {x : Binary64} (h : n.float? = some x) :
    x.isFinite := by
  have bound : n.parts.1 < 2 ^ 64 := extend_lt (extend_lt (by decide) _) _
  exact Binary64.isFinite_of_scale? (Binary64.magnitude_ofRatio_le _ bound) h

end SyntaxForest
