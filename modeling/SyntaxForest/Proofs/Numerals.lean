import Mathlib.Data.List.DropRight
import Mathlib.Data.List.TakeWhile
import SyntaxForest.Json.Reader
import SyntaxForest.Json.Writer

/-!
# Numbers that are written and read

The text of a number says exactly which number it is: behind whatever stands in front of it, the
reader takes the digits before the point, those behind it and the power of ten, and nothing more
(`Json.readNumber_text`).  What the writer sets out for an integer and for a float is the text of
such a number (`Json.writeInt_eq`, `Json.writeFloat_eq`).

This is about the spelling only.  What the spelling of an integer denotes is proved here as well
(`Numeral.int?_ofInt`); whether the spelling of a float denotes that float again is another
question, and the answer depends on the float.
-/

namespace SyntaxForest

namespace Json

/-! ## Digits -/

/-- A run of digits, and at least one. -/
structure Digits (cs : List Char) : Prop where
  some : cs ≠ []
  all : ∀ c ∈ cs, Decimal.isDigit c

/-- What may follow a number: nothing that the number could go on with. -/
def Ends (rest : List Char) : Prop :=
  ∀ c ∈ rest.head?, Decimal.isDigit c = false ∧ c ≠ '.' ∧ c ≠ 'e' ∧ c ≠ 'E'

theorem readDigits_append {ds rest : List Char} (h : Digits ds)
    (stop : ∀ c ∈ rest.head?, Decimal.isDigit c = false) :
    readDigits (ds ++ rest) = some (ds, rest) := by
  have ended : rest.takeWhile Decimal.isDigit = [] ∧ rest.dropWhile Decimal.isDigit = rest := by
    cases rest with
    | nil => exact ⟨rfl, rfl⟩
    | cons c rest => simp [stop c rfl]
  rw [readDigits, List.takeWhile_append_of_pos h.all, List.dropWhile_append_of_pos h.all, ended.1,
    ended.2, List.append_nil]
  simp [h.some]

theorem digits_digitsOf (n : Nat) : Digits (Decimal.digitsOf n) where
  some := Nat.toDigits_ne_nil
  all c hc := by
    have digit := Nat.isDigit_of_mem_toDigits (by decide) (by decide) hc
    simpa [Char.isDigit, Decimal.isDigit, Char.le_def] using digit

theorem natOfDigits_digitsOf (n : Nat) : Decimal.natOfDigits (Decimal.digitsOf n) = n :=
  Nat.ofDigitChars_toDigits (by decide) (by decide)

/-- The digits of a number do not start with a zero, unless the number is zero. -/
theorem head?_digitsOf {n : Nat} (h : n ≠ 0) : (Decimal.digitsOf n).head? ≠ some '0' := by
  have single : ∀ n < 10, n ≠ 0 → n.digitChar ≠ '0' := by decide
  induction n using Nat.strongRecOn with
  | ind n ih =>
    rw [Decimal.digitsOf, Nat.toDigits_eq_if (by decide)]
    split
    · next small => exact fun zero => single n small h (Option.some.inj zero)
    · have shorter := ih (n / 10) (by omega) (by omega)
      rw [Decimal.digitsOf] at shorter
      cases leading : Nat.toDigits 10 (n / 10) with
      | nil => exact absurd leading Nat.toDigits_ne_nil
      | cons c cs =>
        rw [leading] at shorter
        exact shorter

namespace Numeral

/-! ## Numbers as they are written -/

/-- The digits behind a point. -/
def fractionText : Option (List Char) → List Char
  | none => []
  | some digits => '.' :: digits

/-- The power of ten. -/
def powerText : Option Int → List Char
  | none => []
  | some (.ofNat n) => 'e' :: '+' :: Decimal.digitsOf n
  | some (.negSucc n) => 'e' :: '-' :: Decimal.digitsOf (n + 1)

/-- A number behind its sign. -/
def body (n : Numeral) : List Char := n.whole ++ (fractionText n.fraction ++ powerText n.power)

/-- A number with its sign. -/
def text (n : Numeral) : List Char := (if n.negative then ['-'] else []) ++ n.body

/-- The number can be written: there are digits before the point, without a zero too many in front,
and digits behind a point if there is one. -/
structure Wellformed (n : Numeral) : Prop where
  whole : Digits n.whole
  lead : n.whole.head? = some '0' → n.whole.length = 1
  fraction : ∀ digits, n.fraction = some digits → Digits digits

theorem readPower_append (power : Option Int) {rest : List Char} (ends : Ends rest) :
    readPower (powerText power ++ rest) = some (power, rest) := by
  have stop : ∀ c ∈ rest.head?, Decimal.isDigit c = false := fun c hc => (ends c hc).1
  match power with
  | none =>
    cases rest with
    | nil => rfl
    | cons c rest =>
      obtain ⟨-, -, small, great⟩ := ends c rfl
      simp [powerText, readPower, small, great]
  | some (.ofNat n) =>
    simp [powerText, readPower, readDigits_append (digits_digitsOf n) stop, natOfDigits_digitsOf]
  | some (.negSucc n) =>
    simp [powerText, readPower, readDigits_append (digits_digitsOf (n + 1)) stop,
      natOfDigits_digitsOf, Int.negSucc_eq]

theorem readFraction_append {fraction : Option (List Char)}
    (h : ∀ digits, fraction = some digits → Digits digits) {rest : List Char}
    (stop : ∀ c ∈ rest.head?, Decimal.isDigit c = false ∧ c ≠ '.') :
    readFraction (fractionText fraction ++ rest) = some (fraction, rest) := by
  cases fraction with
  | none =>
    cases rest with
    | nil => rfl
    | cons c rest =>
      have other := (stop c rfl).2
      simp only [fractionText, List.nil_append]
      rw [readFraction.eq_def]
      split
      · next same => exact absurd (List.cons.inj same).1 other
      · rfl
  | some digits =>
    have read := readDigits_append (h digits rfl) fun c hc => (stop c hc).1
    simp [fractionText, readFraction, read]

/-- What follows the digits behind a point does not go on with them. -/
theorem head?_powerText {power : Option Int} {rest : List Char} (ends : Ends rest) :
    ∀ c ∈ (powerText power ++ rest).head?, Decimal.isDigit c = false ∧ c ≠ '.' := by
  match power with
  | none => exact fun c hc => ⟨(ends c hc).1, (ends c hc).2.1⟩
  | some (.ofNat _) | some (.negSucc _) =>
    rintro c ⟨⟩
    decide

theorem head?_fractionText {fraction : Option (List Char)} {power : Option Int} {rest : List Char}
    (ends : Ends rest) :
    ∀ c ∈ (fractionText fraction ++ (powerText power ++ rest)).head?,
      Decimal.isDigit c = false := by
  cases fraction with
  | none => exact fun c hc => (head?_powerText ends c hc).1
  | some digits =>
    rintro c ⟨⟩
    decide

/-- **A number that can be written is read as it is written.** -/
theorem readNumber_body {n : Numeral} (h : n.Wellformed) {rest : List Char} (ends : Ends rest) :
    readNumber n.negative (n.body ++ rest) = some (.number n, rest) := by
  have lead : (n.whole.head? == some '0' && n.whole.length != 1) = false := by
    rw [Bool.and_eq_false_iff]
    by_cases zero : n.whole.head? = some '0'
    · exact .inr (by simp [h.lead zero])
    · exact .inl (by simp [zero])
  rw [readNumber, body, List.append_assoc, List.append_assoc,
    readDigits_append h.whole (head?_fractionText ends)]
  simp only [Option.bind_eq_bind, Option.bind_some, lead, Bool.false_eq_true, if_false,
    readFraction_append h.fraction (head?_powerText ends), readPower_append n.power ends]

end Numeral

/-! ## Values -/

/-- What starts with a digit is a number. -/
theorem readValue_of_isDigit {c : Char} (digit : Decimal.isDigit c) (steps : Nat)
    (cs : List Char) : readValue (steps + 1) (c :: cs) = readNumber false (c :: cs) := by
  have other {d : Char} (h : Decimal.isDigit d = false) : c ≠ d := by
    rintro rfl
    rw [h] at digit
    cases digit
  have plain : skipBlanks (c :: cs) = c :: cs := by
    simp [skipBlanks, other (d := ' ') rfl, other (d := '\n') rfl, other (d := '\t') rfl,
      other (d := '\r') rfl]
  rw [readValue.eq_def]
  simp only [plain]
  split
  all_goals first
    | rfl
    | next same => exact absurd (List.cons.inj same).1 (other rfl)

theorem readValue_text {n : Numeral} (h : n.Wellformed) {rest : List Char} (ends : Ends rest)
    (steps : Nat) : readValue (steps + 1) (n.text ++ rest) = some (.number n, rest) := by
  have read := Numeral.readNumber_body h ends
  cases negative : n.negative with
  | true =>
    rw [negative] at read
    rw [Numeral.text, negative, if_pos rfl, ← read]
    rfl
  | false =>
    rw [negative] at read
    rw [Numeral.text, negative, if_neg Bool.false_ne_true, List.nil_append, ← read]
    obtain ⟨c, cs, front, digit⟩ : ∃ c cs, n.body ++ rest = c :: cs ∧ Decimal.isDigit c := by
      cases whole : n.whole with
      | nil => exact absurd whole h.whole.some
      | cons c cs =>
        refine ⟨c, _, by rw [Numeral.body, whole, List.cons_append, List.cons_append], ?_⟩
        exact h.whole.all c (whole ▸ List.mem_cons_self)
    rw [front]
    exact readValue_of_isDigit digit steps cs

/-! ## Integers -/

namespace Numeral

/-- An integer. -/
def ofInt (n : Int) : Numeral := ⟨decide (n < 0), Decimal.digitsOf n.natAbs, none, none⟩

theorem wellformed_ofInt (n : Int) : (ofInt n).Wellformed where
  whole := digits_digitsOf n.natAbs
  lead zero := by
    by_cases h : n.natAbs = 0
    · rw [ofInt, h]
      rfl
    · exact absurd zero (head?_digitsOf h)
  fraction := nofun

theorem writeInt_eq (n : Int) (rest : List Char) : writeInt n rest = (ofInt n).text ++ rest := by
  simp [writeInt, text, body, ofInt, fractionText, powerText]

/-- **The text of an integer denotes the integer.** -/
theorem int?_ofInt (n : Int) : (ofInt n).int? = some n := by
  cases n with
  | ofNat n =>
    have positive : ¬ (n : Int) < 0 := by omega
    simp [int?, ofInt, natOfDigits_digitsOf, positive]
  | negSucc n => simp [int?, ofInt, natOfDigits_digitsOf]

/-! ## Floats -/

/-- Digits with a point among or before them. -/
def positional (negative : Bool) (digits : List Char) : Int → Numeral
  | .ofNat k =>
    let whole := digits.take (k + 1)
    let fraction := digits.drop (k + 1)
    ⟨negative, whole ++ List.replicate (k + 1 - whole.length) '0',
      some (if fraction.isEmpty then ['0'] else fraction), none⟩
  | .negSucc k => ⟨negative, ['0'], some (List.replicate k '0' ++ digits), none⟩

/-- Digits with a point behind the first, and a power of ten. -/
def exponential (negative : Bool) (digits : List Char) (lead : Int) : Numeral :=
  ⟨negative, digits.take 1, if digits.tail.isEmpty then none else some digits.tail, some lead⟩

/-- A decimal as a float is set out. -/
def ofDecimal (negative : Bool) (d : Decimal) : Numeral :=
  if d.significand = 0 then ⟨negative, ['0'], some ['0'], none⟩
  else
    let (digits, lead) := d.scientific
    if floats.least ≤ lead ∧ lead < 16 then positional negative digits lead
    else exponential negative digits lead

/-- A finite float. -/
def ofBinary64 (x : Binary64) : Numeral := ofDecimal x.isNegative (x.shortest floats.tie)

theorem body_positional (negative : Bool) (digits : List Char) (lead : Int) :
    (positional negative digits lead).body = Layout.positional digits lead := by
  cases lead with
  | ofNat k => simp [positional, Layout.positional, body, fractionText, powerText]
  | negSucc k => simp [positional, Layout.positional, body, fractionText, powerText]

theorem body_exponential (negative : Bool) {digits : List Char} (some : digits ≠ [])
    (lead : Int) : (exponential negative digits lead).body = floats.exponential digits lead := by
  obtain ⟨d, rest, rfl⟩ := List.exists_cons_of_ne_nil some
  cases rest <;> cases lead <;>
    simp [exponential, Layout.exponential, body, fractionText, powerText, floats]

/-- The significant digits of a decimal that is not zero. -/
theorem digits_scientific {d : Decimal} (h : d.significand ≠ 0) :
    Digits d.scientific.1 ∧ d.scientific.1.head? ≠ some '0' := by
  have lead := head?_digitsOf h
  have front : d.scientific.1 <+: Decimal.digitsOf d.significand := List.rdropWhile_prefix _ _
  -- not all digits are zeros, so some are left without the zeros at the end
  have left : d.scientific.1 ≠ [] := by
    intro nothing
    have zeros := List.dropWhile_eq_nil_iff.mp (List.reverse_eq_nil_iff.mp nothing)
    cases digits : Decimal.digitsOf d.significand with
    | nil => exact (digits_digitsOf d.significand).some digits
    | cons c cs =>
      have zero := zeros c (List.mem_reverse.mpr (digits ▸ List.mem_cons_self))
      rw [digits, List.head?_cons, eq_of_beq zero] at lead
      exact lead rfl
  refine ⟨⟨left, fun c hc => (digits_digitsOf _).all c (front.subset hc)⟩, ?_⟩
  obtain ⟨c, cs, some⟩ := List.exists_cons_of_ne_nil left
  obtain ⟨zeros, whole⟩ := front
  rw [← whole, some] at lead
  rwa [some]

theorem body_ofDecimal (negative : Bool) (d : Decimal) :
    (ofDecimal negative d).body = floats.decimal d := by
  rw [ofDecimal, Layout.decimal]
  by_cases zero : d.significand = 0
  · rw [if_pos zero, if_pos zero]
    rfl
  · rw [if_neg zero, if_neg zero]
    dsimp only
    split
    · exact body_positional ..
    · exact body_exponential negative (digits_scientific zero).1.some _

theorem negative_ofDecimal (negative : Bool) (d : Decimal) :
    (ofDecimal negative d).negative = negative := by
  rw [ofDecimal]
  dsimp only
  split
  · rfl
  · split
    · cases d.scientific.2 <;> rfl
    · rfl

theorem wellformed_positional (negative : Bool) {digits : List Char} (h : Digits digits)
    (first : digits.head? ≠ some '0') (lead : Int) :
    (positional negative digits lead).Wellformed := by
  obtain ⟨d, rest, rfl⟩ := List.exists_cons_of_ne_nil h.some
  have zeros {n : Nat} {c : Char} (hc : c ∈ List.replicate n '0') : Decimal.isDigit c :=
    List.eq_of_mem_replicate hc ▸ rfl
  cases lead with
  | ofNat k =>
    refine ⟨⟨List.cons_ne_nil _ _, fun c hc => ?_⟩, fun zero => absurd zero first, ?_⟩
    · rcases List.mem_append.mp hc with hc | hc
      · exact h.all c (List.mem_of_mem_take hc)
      · exact zeros hc
    · rintro _ ⟨⟩
      split
      · exact ⟨List.cons_ne_nil _ _, by simp [Decimal.isDigit]⟩
      · next more =>
        exact ⟨fun none => more (by rw [none]; rfl), fun c hc => h.all c (List.mem_of_mem_drop hc)⟩
  | negSucc k =>
    refine ⟨⟨List.cons_ne_nil _ _, by simp [positional, Decimal.isDigit]⟩, fun _ => rfl, ?_⟩
    rintro _ ⟨⟩
    refine ⟨by simp, fun c hc => ?_⟩
    rcases List.mem_append.mp hc with hc | hc
    · exact zeros hc
    · exact h.all c hc

theorem wellformed_exponential (negative : Bool) {digits : List Char} (h : Digits digits)
    (lead : Int) : (exponential negative digits lead).Wellformed := by
  obtain ⟨d, rest, rfl⟩ := List.exists_cons_of_ne_nil h.some
  refine ⟨⟨List.cons_ne_nil _ _, fun c hc => h.all c (List.mem_of_mem_take hc)⟩, fun _ => rfl, ?_⟩
  intro fraction hfraction
  rw [exponential, List.tail_cons] at hfraction
  split at hfraction
  · cases hfraction
  · next more =>
    cases hfraction
    exact ⟨fun none => more (by rw [none]; rfl), fun c hc => h.all c (List.mem_cons_of_mem d hc)⟩

theorem wellformed_ofDecimal (negative : Bool) (d : Decimal) :
    (ofDecimal negative d).Wellformed := by
  rw [ofDecimal]
  by_cases zero : d.significand = 0
  · rw [if_pos zero]
    refine ⟨⟨List.cons_ne_nil _ _, by simp [Decimal.isDigit]⟩, fun _ => rfl, ?_⟩
    rintro _ ⟨⟩
    exact ⟨List.cons_ne_nil _ _, by simp [Decimal.isDigit]⟩
  · rw [if_neg zero]
    obtain ⟨digits, first⟩ := digits_scientific zero
    dsimp only
    split
    · exact wellformed_positional negative digits first _
    · exact wellformed_exponential negative digits _

/-- **A finite float is written as a number.** -/
theorem writeFloat_eq {x : Binary64} (finite : x.isFinite) (rest : List Char) :
    writeFloat x rest = (ofBinary64 x).text ++ rest := by
  rw [writeFloat, if_pos finite, Layout.finite, text, ofBinary64, negative_ofDecimal,
    body_ofDecimal]

/-- A float is written with a point or with a power of ten, so that it is no integer. -/
theorem int?_ofDecimal (negative : Bool) (d : Decimal) : (ofDecimal negative d).int? = none := by
  rw [ofDecimal]
  dsimp only
  split
  · rfl
  · split
    · cases d.scientific.2 <;> rfl
    · rw [exponential, int?]
      split <;> simp_all

end Numeral

end Json

end SyntaxForest
