import Mathlib.Data.Nat.Digits.Defs
import SyntaxForest.Numeric.Layout
import SyntaxForest.Numeric.Token
import SyntaxForest.Proofs.DecimalValues
import SyntaxForest.Proofs.Lexemes
import SyntaxForest.Proofs.Numerals

/-!
# What number tokens denote

An integer is decimal notation with one sign or none (`NumberToken.IsInteger`), with any number of
zeros in front, and nothing else is read as an integer (`NumberToken.int?_eq_some_iff`).

A float is set out with a point or with a power of ten, so its text is never that of an integer
(`NumberToken.int?_finite`), and it is read back (`NumberToken.binary64?_finite`).  The digits that
are set out need not be those of the shortest decimal: zeros are left out at its end and put before
or behind the others.  What is read is another decimal, but one of the same value
(`Layout.exists_setsOut`), and it is the value that is rounded.  All this holds of every layout that
writes a power of ten without a sign or with one.
-/

namespace SyntaxForest

/-! ## Integers -/

namespace NumberToken

/-- Decimal notation: at least one digit, the last of which counts ones. -/
structure IsNatural (digits : List Char) (n : Nat) : Prop where
  some : digits ≠ []
  all : ∀ c ∈ digits, c.isDigit
  value : Nat.ofDigits 10 (digits.reverse.map fun c => c.toNat - '0'.toNat) = n

/-- Decimal notation with a sign or without one. -/
inductive IsInteger : List Char → Int → Prop where
  | unsigned {digits : List Char} {n : Nat} (h : IsNatural digits n) : IsInteger digits n
  | plus {digits : List Char} {n : Nat} (h : IsNatural digits n) : IsInteger ('+' :: digits) n
  | minus {digits : List Char} {n : Nat} (h : IsNatural digits n) : IsInteger ('-' :: digits) (-n)

theorem natOfDigits_eq (digits : List Char) : Decimal.natOfDigits digits =
    Nat.ofDigits 10 (digits.reverse.map fun c => c.toNat - '0'.toNat) := by
  rw [Nat.ofDigits_eq_foldr, List.foldr_map, List.foldr_reverse]
  refine List.foldl_ext _ _ 0 fun n c _ => ?_
  exact Nat.add_comm ..

theorem isNatural_iff {digits : List Char} {n : Nat} :
    IsNatural digits n ↔ Json.Digits digits ∧ Decimal.natOfDigits digits = n := by
  rw [natOfDigits_eq]
  exact ⟨fun h => ⟨⟨h.some, h.all⟩, h.value⟩, fun h => ⟨h.1.some, h.1.all, h.2⟩⟩

/-- What starts with a digit has no sign. -/
theorem sign_digits {digits : List Char} (h : Json.Digits digits) (rest : List Char) :
    sign (digits ++ rest) = (false, digits ++ rest) := by
  obtain ⟨c, cs, rfl⟩ := List.exists_cons_of_ne_nil h.some
  have digit := h.all c List.mem_cons_self
  unfold sign
  split
  · next e => cases e; cases digit
  · next e => cases e; cases digit
  · rfl

theorem lacks_digits_iff {cs : List Char} :
    (cs.isEmpty || !cs.all Decimal.isDigit) ↔ ¬ Json.Digits cs := by
  constructor
  · rintro other ⟨some, all⟩
    simp [some, List.all_eq_true.mpr all] at other
  · intro other
    by_contra digits
    simp only [Bool.or_eq_true, List.isEmpty_iff, Bool.not_eq_true', not_or,
      Bool.not_eq_false, List.all_eq_true] at digits
    exact other ⟨digits.1, digits.2⟩

/-- The digits behind the sign tell the integer. -/
theorem int?_eq_some_iff_of_sign {cs digits : List Char} {negative : Bool}
    (h : sign cs = (negative, digits)) {n : Int} : int? cs = some n ↔
      ∃ m : Nat, IsNatural digits m ∧ (if negative then -(m : Int) else m) = n := by
  rw [int?, h]
  dsimp only
  by_cases some : Json.Digits digits
  · rw [if_neg fun other => lacks_digits_iff.mp other some]
    simp [isNatural_iff, some]
  · rw [if_pos (lacks_digits_iff.mpr some)]
    simp [isNatural_iff, some]

/-- **The integer of a token.** -/
theorem int?_eq_some_iff {cs : List Char} {n : Int} : int? cs = some n ↔ IsInteger cs n := by
  constructor
  · intro read
    match h : sign cs with
    | (negative, digits) =>
      obtain ⟨m, natural, rfl⟩ := (int?_eq_some_iff_of_sign h).mp read
      unfold sign at h
      split at h <;> cases h
      · exact .minus natural
      · exact .plus natural
      · exact .unsigned natural
  · intro h
    cases h with
    | unsigned h =>
      have unsigned := sign_digits (isNatural_iff.mp h).1 []
      rw [List.append_nil] at unsigned
      exact (int?_eq_some_iff_of_sign unsigned).mpr ⟨_, h, rfl⟩
    | plus h => exact (int?_eq_some_iff_of_sign rfl).mpr ⟨_, h, rfl⟩
    | minus h => exact (int?_eq_some_iff_of_sign rfl).mpr ⟨_, h, rfl⟩

/-- **The integer of 32 bits.** -/
theorem int32?_eq_some_iff {cs : List Char} {n : Int} :
    int32? cs = some n ↔ IsInteger cs n ∧ -2 ^ 31 ≤ n ∧ n < 2 ^ 31 := by
  rw [int32?, Option.filter_eq_some_iff, int?_eq_some_iff]
  simp

end NumberToken

/-! ## Texts of floats -/

namespace Json.Numeral

/-- The decimal of a number, its sign left out. -/
def decimal (n : Numeral) : Decimal :=
  .ofParts n.whole (n.fraction.getD []) (n.power.getD 0)

/-- Digits with a point among them have the value that their first digit tells. -/
theorem value_decimal_positional (negative : Bool) (digits : List Char) (lead : Int) :
    (positional negative digits lead).decimal.value = (Decimal.ofDigits digits lead).value := by
  cases lead with
  | ofNat k =>
    by_cases short : digits.length ≤ k + 1
    · have before : digits.take (k + 1) = digits := List.take_of_length_le short
      have behind : digits.drop (k + 1) = [] := List.drop_eq_nil_of_le short
      have first : (0 : Int) + (digits.length + (k + 1 - digits.length) : Nat) - 1 = k := by omega
      calc (positional negative digits k).decimal.value
        _ = (Decimal.ofDigits (digits ++ List.replicate (k + 1 - digits.length) '0' ++ ['0'])
            k).value := by
          simp only [positional, decimal, before, behind, Decimal.ofParts_eq, List.isEmpty_nil,
            if_true, Option.getD_some, Option.getD_none, List.length_append,
            List.length_replicate, first]
        _ = (Decimal.ofDigits (digits ++ List.replicate (k + 1 - digits.length + 1) '0')
            k).value := by
          rw [List.append_assoc, ← List.replicate_succ']
        _ = (Decimal.ofDigits digits k).value := Decimal.value_ofDigits_append_zeros ..
    · have full : (digits.take (k + 1)).length = k + 1 := List.length_take_of_le (by omega)
      have more : (digits.drop (k + 1)).isEmpty = false := by
        rw [List.isEmpty_eq_false_iff, Ne, List.drop_eq_nil_iff]
        exact short
      have first : (0 : Int) + (k + 1 : Nat) - 1 = k := by omega
      calc (positional negative digits k).decimal.value
        _ = (Decimal.ofDigits (digits.take (k + 1) ++ digits.drop (k + 1)) k).value := by
          simp only [positional, decimal, full, more, Decimal.ofParts_eq, Nat.sub_self,
            List.replicate_zero, List.append_nil, Bool.false_eq_true, if_false, Option.getD_some,
            Option.getD_none, first]
        _ = (Decimal.ofDigits digits k).value := by rw [List.take_append_drop]
  | negSucc k =>
    have first : (0 : Int) + (1 : Nat) - 1 - (k + 1 : Nat) = .negSucc k := by omega
    calc (positional negative digits (.negSucc k)).decimal.value
      _ = (Decimal.ofDigits (List.replicate (k + 1) '0' ++ digits)
          ((0 : Int) + (1 : Nat) - 1)).value := by
        simp only [positional, decimal, Decimal.ofParts_eq, Option.getD_some, Option.getD_none]
        rfl
      _ = (Decimal.ofDigits digits (.negSucc k)).value := by
        rw [Decimal.ofDigits_zeros_append, first]

/-- Digits with a power of ten behind have the value that this tells. -/
theorem decimal_exponential (negative : Bool) {digits : List Char} (some : digits ≠ [])
    (lead : Int) :
    (exponential negative digits lead).decimal = Decimal.ofDigits digits lead := by
  obtain ⟨d, rest, rfl⟩ := List.exists_cons_of_ne_nil some
  cases rest <;> simp [exponential, decimal, Decimal.ofParts_eq]

end Json.Numeral

namespace Layout

variable (l : Layout)

/-- A power of ten behind digits. -/
def powerText : Option Int → List Char
  | none => []
  | some (.ofNat k) => 'e' :: (l.plus ++ Decimal.digitsOf k)
  | some (.negSucc k) => 'e' :: '-' :: Decimal.digitsOf (k + 1)

/-- A number without sign is set out as the text of a decimal. -/
structure SetsOut (d : Decimal) (n : Json.Numeral) : Prop where
  text : l.decimal d = n.whole ++ (Json.Numeral.fractionText n.fraction ++ l.powerText n.power)
  wellformed : n.Wellformed
  value : n.decimal.value = d.value
  float : n.fraction.isSome ∨ n.power.isSome

theorem setsOut_zero {d : Decimal} (zero : d.significand = 0) :
    l.SetsOut d ⟨false, ['0'], some ['0'], none⟩ where
  text := by
    rw [decimal, if_pos zero]
    rfl
  wellformed := Json.Numeral.wellformed_ofDecimal false ⟨0, 0⟩
  value := by
    have nothing : Json.Numeral.decimal ⟨false, ['0'], some ['0'], none⟩ = ⟨0, -1⟩ := rfl
    rw [nothing, Decimal.value, Decimal.value, zero, Nat.cast_zero, zero_mul, zero_mul]
  float := .inl rfl

theorem setsOut_positional {d : Decimal} (nonzero : d.significand ≠ 0)
    (near : l.least ≤ d.scientific.2 ∧ d.scientific.2 < 16) :
    l.SetsOut d (.positional false d.scientific.1 d.scientific.2) where
  text := by
    rw [decimal, if_neg nonzero]
    dsimp only
    rw [if_pos near, ← Json.Numeral.body_positional false, Json.Numeral.body]
    cases d.scientific.2 <;> rfl
  wellformed := by
    obtain ⟨digits, first⟩ := Json.Numeral.digits_scientific nonzero
    exact Json.Numeral.wellformed_positional false digits first _
  value := by rw [Json.Numeral.value_decimal_positional, Decimal.value_scientific]
  float := by cases d.scientific.2 <;> exact .inl rfl

theorem setsOut_exponential {d : Decimal} (nonzero : d.significand ≠ 0)
    (far : ¬ (l.least ≤ d.scientific.2 ∧ d.scientific.2 < 16)) :
    l.SetsOut d (.exponential false d.scientific.1 d.scientific.2) where
  text := by
    obtain ⟨c, cs, digits⟩ :=
      List.exists_cons_of_ne_nil (Json.Numeral.digits_scientific nonzero).1.some
    rw [decimal, if_neg nonzero]
    dsimp only
    rw [if_neg far, digits]
    cases cs <;> cases d.scientific.2 <;> rfl
  wellformed :=
    Json.Numeral.wellformed_exponential false (Json.Numeral.digits_scientific nonzero).1 _
  value := by
    rw [Json.Numeral.decimal_exponential false (Json.Numeral.digits_scientific nonzero).1.some,
      Decimal.value_scientific]
  float := .inr rfl

/-- **What a decimal is set out as has the value of the decimal**, and is no integer. -/
theorem exists_setsOut (d : Decimal) : ∃ n, l.SetsOut d n := by
  by_cases zero : d.significand = 0
  · exact ⟨_, l.setsOut_zero zero⟩
  · by_cases near : l.least ≤ d.scientific.2 ∧ d.scientific.2 < 16
    · exact ⟨_, l.setsOut_positional zero near⟩
    · exact ⟨_, l.setsOut_exponential zero near⟩

end Layout

namespace NumberToken

variable {l : Layout}

theorem head?_powerText (power : Option Int) : ∀ c ∈ (l.powerText power).head?, c = 'e' := by
  match power with
  | none => nofun
  | some (.ofNat _) | some (.negSucc _) => exact fun c hc => (Option.some.inj hc).symm

/-- The digits at the front are those that were put there. -/
theorem span_digits {digits rest : List Char} (h : Json.Digits digits)
    (stop : ∀ c ∈ rest.head?, Decimal.isDigit c = false) :
    (digits ++ rest).takeWhile Decimal.isDigit = digits ∧
      (digits ++ rest).dropWhile Decimal.isDigit = rest := by
  have read := Json.readDigits_append h stop
  unfold Json.readDigits at read
  dsimp only at read
  split at read
  · cases read
  · exact Prod.mk.inj (Option.some.inj read)

theorem toLower_of_isDigit {c : Char} (h : Decimal.isDigit c) : c.toLower = c := by
  simp only [Decimal.isDigit, Bool.and_eq_true, decide_eq_true_eq, Char.le_def] at h
  refine dif_neg ?_
  rintro ⟨upper, -⟩
  exact absurd (UInt32.le_trans upper h.2) (by decide)

/-- What starts with a digit is no name. -/
theorem letters_ne {digits : List Char} (h : Json.Digits digits) (rest : List Char)
    {name : List Char} {c : Char} (first : name.head? = some c)
    (letter : Decimal.isDigit c = false) :
    ¬ ((digits ++ rest).map Char.toLower == name) := by
  obtain ⟨d, ds, rfl⟩ := List.exists_cons_of_ne_nil h.some
  have digit := h.all d List.mem_cons_self
  intro same
  rw [← eq_of_beq same, List.cons_append, List.map_cons, toLower_of_isDigit digit] at first
  cases first
  rw [digit] at letter
  cases letter

/-- The sign is that of the float. -/
theorem sign_finite {x : Binary64} {n : Json.Numeral} (sets : l.SetsOut (x.shortest l.tie) n) :
    sign (l.finite x) = (x.isNegative, l.decimal (x.shortest l.tie)) := by
  rw [Layout.finite, sets.text]
  cases x.isNegative with
  | true => rfl
  | false => exact sign_digits sets.wellformed.whole _

/-- The text of a float is not that of an integer. -/
theorem int?_finite (l : Layout) (x : Binary64) : int? (l.finite x) = none := by
  obtain ⟨n, sets⟩ := l.exists_setsOut (x.shortest l.tie)
  refine Option.eq_none_iff_forall_ne_some.mpr fun k read => ?_
  obtain ⟨m, natural, -⟩ := (int?_eq_some_iff_of_sign (sign_finite sets)).mp read
  have digits := (isNatural_iff.mp natural).1.all
  rw [sets.text] at digits
  have absurd {c : Char} (other : Decimal.isDigit c = false)
      (hc : c ∈ n.whole ++ (Json.Numeral.fractionText n.fraction ++ l.powerText n.power)) :
      False := by
    rw [digits c hc] at other
    cases other
  rcases sets.float with point | letter
  · obtain ⟨fraction, hfraction⟩ := Option.isSome_iff_exists.mp point
    refine absurd (c := '.') rfl ?_
    simp [hfraction, Json.Numeral.fractionText]
  · obtain ⟨power, hpower⟩ := Option.isSome_iff_exists.mp letter
    refine absurd (c := 'e') rfl ?_
    cases power <;> simp [hpower, Layout.powerText]

section

-- A power of ten that is not negative is written without a sign or with one that is read.
variable (plus : l.plus = [] ∨ l.plus = ['+'])
include plus

/-- A power of ten is read off. -/
theorem exponent?_powerText (power : Option Int) :
    exponent? (l.powerText power) = some (power.getD 0) := by
  have natural (k : Nat) : IsNatural (Decimal.digitsOf k) k :=
    isNatural_iff.mpr ⟨Json.digits_digitsOf k, Json.natOfDigits_digitsOf k⟩
  match power with
  | none => rfl
  | some (.ofNat k) =>
    have read : IsInteger (l.plus ++ Decimal.digitsOf k) k := by
      rcases plus with none | one
      · rw [none]
        exact .unsigned (natural k)
      · rw [one]
        exact .plus (natural k)
    exact int?_eq_some_iff.mpr read
  | some (.negSucc k) => exact int?_eq_some_iff.mpr (.minus (natural (k + 1)))

/-- Digits, more digits behind a point, and a power of ten are read off. -/
theorem decimal?_text {n : Json.Numeral} (h : n.Wellformed) :
    decimal? (n.whole ++ (Json.Numeral.fractionText n.fraction ++ l.powerText n.power)) =
      some n.decimal := by
  have power := exponent?_powerText plus n.power
  have letter := head?_powerText (l := l) n.power
  have stop : ∀ c ∈ (l.powerText n.power).head?, Decimal.isDigit c = false :=
    fun c hc => letter c hc ▸ rfl
  have some : n.whole.isEmpty = false := List.isEmpty_eq_false_iff.mpr h.whole.some
  cases fraction : n.fraction with
  | none =>
    obtain ⟨whole, rest⟩ := span_digits h.whole stop
    simp only [Json.Numeral.fractionText, List.nil_append, decimal?, whole, rest]
    split
    · next same => rw [same] at letter; cases letter '.' rfl
    · simp [some, power, Json.Numeral.decimal, fraction]
  | some digits =>
    obtain ⟨behind, rest⟩ := span_digits (h.fraction digits fraction) stop
    have point : ∀ c ∈ ('.' :: (digits ++ l.powerText n.power)).head?,
        Decimal.isDigit c = false := by
      rintro c ⟨⟩
      rfl
    obtain ⟨whole, point⟩ := span_digits h.whole point
    simp only [Json.Numeral.fractionText, List.cons_append, decimal?, whole, point, behind, rest]
    simp [some, power, Json.Numeral.decimal, fraction]

/-- **The text of a float is read as the float**, in every such layout. -/
theorem binary64?_finite {x : Binary64} (finite : x.isFinite) :
    binary64? (l.finite x) = some x := by
  obtain ⟨n, sets⟩ := l.exists_setsOut (x.shortest l.tie)
  have value : (decimal? (l.decimal (x.shortest l.tie))).map (.ofDecimal x.isNegative) =
      some x := by
    rw [sets.text, decimal?_text plus sets.wellformed, Option.map_some,
      Binary64.ofDecimal_congr _ sets.value, Binary64.ofDecimal_shortest _ finite]
  have unnamed {name : List Char} {c : Char} (first : name.head? = some c)
      (letter : Decimal.isDigit c = false) :
      ¬ ((l.decimal (x.shortest l.tie)).map Char.toLower == name) := by
    rw [sets.text]
    exact letters_ne sets.wellformed.whole _ first letter
  rw [binary64?, sign_finite sets]
  dsimp only
  rw [if_neg, if_neg (unnamed (c := 'n') rfl rfl), value]
  rw [Bool.or_eq_true, not_or]
  exact ⟨unnamed (c := 'i') rfl rfl, unnamed (c := 'i') rfl rfl⟩

end

end NumberToken

/-! ## Blanks -/

theorem trimmed_eq_self {cs : List Char} (visible : ∀ c ∈ cs, isBlank c = false) :
    trimmed cs = cs := by
  have none {ds : List Char} (h : ∀ c ∈ ds, isBlank c = false) : ds.dropWhile isBlank = ds := by
    cases ds with
    | nil => rfl
    | cons c ds => exact List.dropWhile_cons_of_neg (by simp [h c List.mem_cons_self])
  rw [trimmed, none visible, none (by simpa using visible), List.reverse_reverse]

/-- The text of a float has no blanks in it. -/
theorem Layout.trimmed_finite {l : Layout} (plus : l.plus = [] ∨ l.plus = ['+']) (x : Binary64) :
    trimmed (l.finite x) = l.finite x := by
  obtain ⟨n, sets⟩ := l.exists_setsOut (x.shortest l.tie)
  have digits {ds : List Char} (h : Json.Digits ds) : ∀ c ∈ ds, isBlank c = false :=
    fun c hc => isBlank_of_isWordCharacter (isWordCharacter_of_isDigit (h.all c hc))
  have natural (k : Nat) := digits (Json.digits_digitsOf k)
  refine trimmed_eq_self ?_
  rw [finite, sets.text, List.forall_mem_append, List.forall_mem_append, List.forall_mem_append]
  refine ⟨?_, digits sets.wellformed.whole, ?_, ?_⟩
  · split
    · exact List.forall_mem_singleton.mpr rfl
    · exact List.forall_mem_nil _
  · cases fraction : n.fraction with
    | none => exact List.forall_mem_nil _
    | some ds =>
      exact List.forall_mem_cons.mpr ⟨rfl, digits (sets.wellformed.fraction ds fraction)⟩
  · rcases n.power with _ | k | k
    · exact List.forall_mem_nil _
    · have sign : ∀ c ∈ l.plus, isBlank c = false := by
        rcases plus with none | one
        · rw [none]
          exact List.forall_mem_nil _
        · rw [one]
          exact List.forall_mem_singleton.mpr rfl
      exact List.forall_mem_cons.mpr ⟨rfl, List.forall_mem_append.mpr ⟨sign, natural k⟩⟩
    · exact List.forall_mem_cons.mpr ⟨rfl, List.forall_mem_cons.mpr ⟨rfl, natural (k + 1)⟩⟩

end SyntaxForest
