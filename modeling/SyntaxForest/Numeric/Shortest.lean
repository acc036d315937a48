import SyntaxForest.Numeric.Binary64

/-!
# The shortest decimal that reads back

For a finite number, the decimal with the fewest digits that rounds to it again, and of those with
that many digits the nearest.  The points of a decimal grid that can round to a number include one
of its two neighbours on the grid, if any does; so for 1, 2, …, 17 digits it is enough to test the
two neighbours, and the first grid with a hit wins.  The result is tested with the very function
that reads decimals, which is why it reads back (`Binary64.ofDecimal_shortest`).
-/

namespace SyntaxForest

namespace Binary64

/-- Which neighbour is taken when a number lies half-way between two. -/
inductive Tie where
  | even
  | up
  deriving DecidableEq, Repr

/-- The ratio of `units * 2 ^ -1074` to `10 ^ k`, as numerator and denominator. -/
def perPower (units : Nat) : Int → Nat × Nat
  | .ofNat k => (units, 2 ^ 1074 * 10 ^ k)
  | .negSucc k => (units * 10 ^ (k + 1), 2 ^ 1074)

/-- The power of ten of the first digit of a positive number of units: an estimate from the binary
logarithm, which can only be one too small. -/
def leadingPower (units : Nat) : Int :=
  let estimate := ((units.log2 : Int) - 1074) * 30103 / 100000
  let (num, den) := perPower units (estimate + 1)
  if den ≤ num then estimate + 1 else estimate

/-- Whether a decimal rounds to the magnitude of `x`. -/
def readsBack (x : Binary64) (d : Decimal) : Bool :=
  ofDecimal x.isNegative d == x

/-- The neighbour of `x` on the grid of multiples of `10 ^ k` that rounds to `x`; of two, the
nearer one. -/
def neighbour? (tie : Tie) (x : Binary64) (k : Int) : Option Decimal :=
  let (num, den) := perPower x.units k
  let below : Decimal := ⟨num / den, k⟩
  let above : Decimal := ⟨num / den + 1, k⟩
  let double := 2 * (num % den)
  let aboveFirst := den < double ||
    den == double && (tie == .up || below.significand % 2 == 1)
  (if aboveFirst then [above, below] else [below, above]).find? x.readsBack

/-- The shortest decimal that rounds to a finite number, its sign left out. -/
def shortest (tie : Tie) (x : Binary64) : Decimal :=
  if x.units = 0 then ⟨0, 0⟩
  else
    let lead := leadingPower x.units
    ((List.range 17).findSome? fun n : Nat => neighbour? tie x (lead - n)).getD
      ⟨x.units * 5 ^ 1074, -1074⟩

/-! ## Reading back -/

/-- Each factor five adds at least two binary digits. -/
theorem log2_mul_five_pow {n : Nat} (h : n ≠ 0) (k : Nat) : 2 * k ≤ (n * 5 ^ k).log2 := by
  have five : 5 ^ k ≠ 0 := Nat.ne_of_gt (Nat.pow_pos (by decide))
  rw [Nat.le_log2 (Nat.mul_ne_zero h five), Nat.pow_mul]
  exact Nat.le_trans (Nat.pow_le_pow_left (by decide) k)
    (Nat.le_mul_of_pos_left _ (Nat.pos_of_ne_zero h))

/-- The decimal with every digit of a number reads back. -/
theorem ofDecimal_units {x : Binary64} (finite : x.isFinite) (nonzero : x.units ≠ 0) :
    ofDecimal x.isNegative ⟨x.units * 5 ^ 1074, -1074⟩ = x := by
  have long := log2_mul_five_pow nonzero 1074
  have five (k : Nat) : 5 ^ k ≠ 0 := Nat.ne_of_gt (Nat.pow_pos (by decide))
  have value (k : Nat) : x.units * 5 ^ k * 2 ^ k = x.units * 10 ^ k := by
    rw [Nat.mul_assoc, ← Nat.mul_pow]
  refine ofDecimal_eq_of_value (e := 1073) finite (Nat.mul_ne_zero nonzero (five 1074))
    (by omega) ?_
  rw [show 1073 + 1 = 1074 from rfl]
  exact value 1074

/-- A neighbour is taken only when it reads back. -/
theorem readsBack_of_neighbour? {tie : Tie} {x : Binary64} {k : Int} {d : Decimal}
    (h : neighbour? tie x k = some d) : x.readsBack d := by
  unfold neighbour? at h
  exact List.find?_some h

/-- The shortest decimal of a finite number reads back as that number. -/
theorem ofDecimal_shortest (tie : Tie) {x : Binary64} (finite : x.isFinite) :
    ofDecimal x.isNegative (x.shortest tie) = x := by
  unfold shortest
  split
  · next zero =>
    rw [units_eq_zero] at zero
    conv => rhs; rw [← x.ofMagnitude_magnitude, zero]
    rfl
  · next nonzero =>
    simp only
    cases h : (List.range 17).findSome? fun n : Nat =>
      neighbour? tie x (leadingPower x.units - n) with
    | none => exact ofDecimal_units finite nonzero
    | some d =>
      obtain ⟨n, _, hit⟩ := List.exists_of_findSome?_eq_some h
      exact eq_of_beq (readsBack_of_neighbour? hit)

end Binary64

end SyntaxForest
