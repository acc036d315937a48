import Mathlib.Data.List.TakeWhile
import SyntaxForest.Kind
import SyntaxForest.Text.Blank
import SyntaxForest.Text.Quoted

/-!
# Lexemes

The smallest pieces of source text are words and quoted strings.  Each can be read off the front of
a text in one way only.

The statements about reading have two sides: if a piece and a rest make the same text as another
piece and another rest, then the pieces are the same and the rests are.  For a word this needs that
the rests do not go on with it (`Broken`), for a quoted string it does not, because its end is
marked.
-/

namespace SyntaxForest

/-! ## Words -/

/-- A character of a word. -/
def isWordCharacter (c : Char) : Bool := c.isAlphanum || c == '_' || c == '$'

/-- A word that can be a name: it does not start with a digit, and it is none of the keywords that
stand for values. -/
def isIdentifier (cs : List Char) : Bool :=
  cs.head?.any (!·.isDigit) && cs.all isWordCharacter &&
    Keyword.all.all (·.text.toList != cs)

/-- A word of digits. -/
def isNumeral (cs : List Char) : Bool := !cs.isEmpty && cs.all Char.isDigit

/-- A character of a number: besides those of words there are points and signs, and whatever is
beyond ASCII counts as a letter. -/
def isNumberCharacter (c : Char) : Bool :=
  isWordCharacter c || c == '.' || c == '+' || c == '-' || 0x7F < c.toNat

/-- The token of a number.  It starts with a digit. -/
def isNumber (cs : List Char) : Bool :=
  cs.head?.any Char.isDigit && cs.all isNumberCharacter

/-- What an expression without parts is written with: a name, a number or a keyword. -/
inductive Word where
  | identifier (chars : List Char) (valid : isIdentifier chars)
  | number (chars : List Char) (valid : isNumber chars)
  | keyword (keyword : Keyword)

/-- A text does not start inside a word. -/
def Broken (rest : List Char) : Prop := rest.head?.all (!isNumberCharacter ·)

theorem broken_cons {c : Char} (h : isNumberCharacter c = false) (rest : List Char) :
    Broken (c :: rest) := by
  rw [Broken, List.head?_cons, Option.all_some, h]
  rfl

theorem isWordCharacter_of_isDigit {c : Char} (h : c.isDigit) : isWordCharacter c := by
  simp [isWordCharacter, Char.isAlphanum, h]

theorem isNumberCharacter_of_isWordCharacter {c : Char} (h : isWordCharacter c) :
    isNumberCharacter c := by
  simp [isNumberCharacter, h]

/-- A word of digits is a number. -/
theorem isNumber_of_isNumeral {cs : List Char} (h : isNumeral cs) : isNumber cs := by
  simp only [isNumeral, Bool.and_eq_true, List.all_eq_true] at h
  cases cs with
  | nil => cases h.1
  | cons c cs =>
    refine Bool.and_eq_true_iff.mpr ⟨h.2 c List.mem_cons_self, List.all_eq_true.mpr ?_⟩
    exact fun d hd => isNumberCharacter_of_isWordCharacter (isWordCharacter_of_isDigit (h.2 d hd))

/-- Words have no blanks in them. -/
theorem isBlank_of_isWordCharacter {c : Char} (h : isWordCharacter c) : isBlank c = false := by
  have within {low high : UInt32} (h : decide (low ≤ c.val) && decide (c.val ≤ high)) :
      low ≤ c.val ∧ c.val ≤ high :=
    (Bool.and_eq_true_iff.mp h).imp of_decide_eq_true of_decide_eq_true
  have between {low high : UInt32} (h : low ≤ c.val ∧ c.val ≤ high) :
      low.toNat ≤ c.toNat ∧ c.toNat ≤ high.toNat :=
    h.imp UInt32.le_iff_toNat_le.mp UInt32.le_iff_toNat_le.mp
  -- no blank is a dollar sign or lies between the digits and the last letter
  have range : c.toNat = 0x24 ∨ 0x30 ≤ c.toNat ∧ c.toNat ≤ 0x7A := by
    simp only [isWordCharacter, Char.isAlphanum, Bool.or_eq_true, beq_iff_eq] at h
    rcases h with ((letter | digit) | rfl) | rfl
    · rcases Bool.or_eq_true_iff.mp letter with upper | lower
      · have bounds := between (of_decide_eq_true upper)
        exact .inr ⟨Nat.le_trans (by decide) bounds.1, Nat.le_trans bounds.2 (by decide)⟩
      · have bounds := between (within lower)
        exact .inr ⟨Nat.le_trans (by decide) bounds.1, Nat.le_trans bounds.2 (by decide)⟩
    · have bounds := between (within digit)
      exact .inr ⟨bounds.1, Nat.le_trans bounds.2 (by decide)⟩
    · decide
    · decide
  simp only [isBlank, Bool.or_eq_false_iff, Bool.and_eq_false_iff, decide_eq_false_iff_not,
    beq_eq_false_iff_ne]
  omega

namespace Word

/-- The word as it is written. -/
def chars : Word → List Char
  | identifier cs _ => cs
  | number cs _ => cs
  | keyword k => k.text.toList

theorem all_chars (w : Word) : w.chars.all isNumberCharacter := by
  cases w with
  | identifier cs valid =>
    simp only [isIdentifier, Bool.and_eq_true, List.all_eq_true] at valid
    exact List.all_eq_true.mpr fun c hc => isNumberCharacter_of_isWordCharacter (valid.1.2 c hc)
  | number cs valid => exact (Bool.and_eq_true_iff.mp valid).2
  | keyword k => cases k <;> decide

/-- A word starts like a word, also where it is a number. -/
theorem exists_first (w : Word) :
    ∃ first more, w.chars = first :: more ∧ isWordCharacter first := by
  cases w with
  | identifier cs valid =>
    cases cs with
    | nil => cases valid
    | cons c cs =>
      simp only [isIdentifier, List.all_cons, Bool.and_eq_true] at valid
      exact ⟨c, cs, rfl, valid.1.2.1⟩
  | number cs valid =>
    cases cs with
    | nil => cases valid
    | cons c cs =>
      exact ⟨c, cs, rfl, isWordCharacter_of_isDigit (Bool.and_eq_true_iff.mp valid).1⟩
  | keyword k => cases k <;> exact ⟨_, _, rfl, rfl⟩

theorem chars_ne_nil (w : Word) : w.chars ≠ [] := by
  obtain ⟨first, more, written, -⟩ := w.exists_first
  rw [written]
  nofun

theorem identifier_ne_number {cs cs' : List Char} (valid : isIdentifier cs)
    (valid' : isNumber cs') : cs ≠ cs' := by
  rintro rfl
  cases cs with
  | nil => cases valid
  | cons c cs =>
    have digit : c.isDigit := (Bool.and_eq_true_iff.mp valid').1
    simp [isIdentifier, digit] at valid

theorem identifier_ne_keyword {cs : List Char} (valid : isIdentifier cs) (k : Keyword) :
    cs ≠ k.text.toList := by
  rintro rfl
  simp only [isIdentifier, Bool.and_eq_true, List.all_eq_true] at valid
  have other := valid.2 k (by cases k <;> decide)
  simp at other

theorem number_ne_keyword {cs : List Char} (valid : isNumber cs) (k : Keyword) :
    cs ≠ k.text.toList := by
  rintro rfl
  cases k <;> cases valid

/-- **A word is known by its characters.** -/
theorem chars_injective : Function.Injective chars := by
  intro w w' h
  cases w with
  | identifier cs valid =>
    cases w' with
    | identifier cs' => cases h; rfl
    | number cs' valid' => exact absurd h (identifier_ne_number valid valid')
    | keyword k => exact absurd h (identifier_ne_keyword valid k)
  | number cs valid =>
    cases w' with
    | identifier cs' valid' => exact absurd h.symm (identifier_ne_number valid' valid)
    | number cs' => cases h; rfl
    | keyword k => exact absurd h (number_ne_keyword valid k)
  | keyword k =>
    cases w' with
    | identifier cs' valid' => exact absurd h.symm (identifier_ne_keyword valid' k)
    | number cs' valid' => exact absurd h.symm (number_ne_keyword valid' k)
    | keyword k' => cases k <;> cases k' <;> first | rfl | exact absurd h (by decide)

theorem takeWhile_append (w : Word) {rest : List Char} (h : Broken rest) :
    (w.chars ++ rest).takeWhile isNumberCharacter = w.chars := by
  have none : rest.takeWhile isNumberCharacter = [] := by
    cases rest with
    | nil => rfl
    | cons c rest => exact List.takeWhile_cons_of_neg (by simpa [Broken] using h)
  rw [List.takeWhile_append_of_pos (List.all_eq_true.mp w.all_chars), none, List.append_nil]

theorem dropWhile_append (w : Word) {rest : List Char} (h : Broken rest) :
    (w.chars ++ rest).dropWhile isNumberCharacter = rest :=
  dropWhile_append_of_all w.all_chars (by cases rest <;> simp_all [Broken])

/-- **Words can be read off a text in one way.** -/
theorem eq_of_append {w w' : Word} {rest rest' : List Char} (h : Broken rest) (h' : Broken rest')
    (same : w.chars ++ rest = w'.chars ++ rest') : w = w' ∧ rest = rest' := by
  constructor
  -- the word is what is in front of the first other character
  · apply chars_injective
    rw [← w.takeWhile_append h, same, w'.takeWhile_append h']
  · rw [← w.dropWhile_append h, same, w'.dropWhile_append h']

end Word

/-! ## Quoted strings -/

/-- The quotes that a string can stand between. -/
inductive Quote where
  | single
  | double

namespace Quote

/-- The quote as a character. -/
def char : Quote → Char
  | single => '\x27'
  | double => '"'

theorem char_injective : Function.Injective char := by
  intro q q' h
  cases q <;> cases q' <;> first | rfl | exact absurd h (by decide)

theorem backslash_ne (q : Quote) : '\\' ≠ q.char := by cases q <;> decide

end Quote

namespace Quoted

/-- The value of a hexadecimal digit in upper case. -/
def hexValue (c : Char) : Nat := if c.isDigit then c.toNat - '0'.toNat else c.toNat - 'A'.toNat + 10

/-- Read one character of a quoted string, which may be written with an escape. -/
def readEscape : List Char → Option (Char × List Char)
  | '\\' :: 'n' :: rest => some ('\n', rest)
  | '\\' :: 'r' :: rest => some ('\r', rest)
  | '\\' :: 't' :: rest => some ('\t', rest)
  | '\\' :: '0' :: rest => some ('\x00', rest)
  | '\\' :: 'u' :: a :: b :: c :: d :: rest =>
    some (Char.ofNat (((hexValue a * 16 + hexValue b) * 16 + hexValue c) * 16 + hexValue d), rest)
  | '\\' :: c :: rest => some (c, rest)
  | c :: rest => some (c, rest)
  | [] => none

theorem hexValue_hexDigit : ∀ n < 16, hexValue (hexDigit n) = n := by decide

/-- Four hexadecimal digits are read back. -/
theorem readEscape_hexFour {c : Char} (h : c.toNat < 0x10000) (rest : List Char) :
    readEscape ('\\' :: 'u' :: hexFour c.toNat ++ rest) = some (c, rest) := by
  show some (Char.ofNat _, rest) = some (c, rest)
  have digit (n : Nat) : hexValue (hexDigit (n % 16)) = n % 16 :=
    hexValue_hexDigit _ (Nat.mod_lt n (by decide))
  have value : ((c.toNat / 4096 % 16 * 16 + c.toNat / 256 % 16) * 16 + c.toNat / 16 % 16) * 16 +
      c.toNat % 16 = c.toNat := by omega
  rw [digit, digit, digit, digit, value, Char.ofNat_toNat]

/-- **Every character of a quoted string is read back.** -/
theorem readEscape_escape (q : Quote) (c : Char) (rest : List Char) :
    readEscape (escape q.char c ++ rest) = some (c, rest) := by
  unfold escape
  split
  · rfl
  · rfl
  · rfl
  · rfl
  · rfl
  · next backslash _ =>
    split
    · next quote =>
      obtain rfl := beq_iff_eq.mp quote
      cases q <;> rfl
    · split
      · next control =>
        apply readEscape_hexFour
        simp only [Bool.or_eq_true, decide_eq_true_eq, beq_iff_eq] at control
        omega
      · rw [List.singleton_append]
        unfold readEscape
        split <;> simp_all

/-- The quote in use never starts what a character is written as. -/
theorem head?_escape_ne (q : Quote) (c : Char) (rest : List Char) :
    (escape q.char c ++ rest).head? ≠ some q.char := by
  have start : ∃ first more, escape q.char c = first :: more ∧ first ≠ q.char := by
    unfold escape
    split
    all_goals try exact ⟨'\\', _, rfl, q.backslash_ne⟩
    split
    · exact ⟨'\\', _, rfl, q.backslash_ne⟩
    · next other =>
      split
      · exact ⟨'\\', _, rfl, q.backslash_ne⟩
      · exact ⟨c, [], rfl, fun quote => other (beq_iff_eq.mpr quote)⟩
  obtain ⟨first, more, written, other⟩ := start
  rw [written, List.cons_append, List.head?_cons]
  exact fun same => other (Option.some.inj same)

/-- Quoted characters with the quote behind them can be read off a text in one way. -/
theorem body_eq_of_append {q : Quote} {value value' rest rest' : List Char}
    (same : body q.char value ++ q.char :: rest = body q.char value' ++ q.char :: rest') :
    value = value' ∧ rest = rest' := by
  induction value generalizing value' with
  | nil =>
    cases value' with
    | nil => exact ⟨rfl, List.tail_eq_of_cons_eq same⟩
    | cons c value' =>
      rw [body, body, List.flatMap_nil, List.nil_append, List.flatMap_cons, List.append_assoc]
        at same
      exact absurd (congrArg List.head? same).symm (head?_escape_ne q c _)
  | cons c value ih =>
    cases value' with
    | nil =>
      rw [body, body, List.flatMap_nil, List.nil_append, List.flatMap_cons, List.append_assoc]
        at same
      exact absurd (congrArg List.head? same) (head?_escape_ne q c _)
    | cons c' value' =>
      rw [body, body, List.flatMap_cons, List.flatMap_cons, List.append_assoc, List.append_assoc]
        at same
      -- reading one character takes the same from both
      have read := congrArg readEscape same
      rw [readEscape_escape, readEscape_escape, Option.some.injEq, Prod.mk.injEq] at read
      obtain ⟨rfl, read⟩ := read
      obtain ⟨rfl, rest_eq⟩ := ih read
      exact ⟨rfl, rest_eq⟩

end Quoted

/-- A string value between quotes. -/
def Quote.around (q : Quote) (value : List Char) : List Char :=
  q.char :: (Quoted.body q.char value ++ [q.char])

/-- **Quoted strings can be read off a text in one way.** -/
theorem Quote.eq_of_append {q q' : Quote} {value value' rest rest' : List Char}
    (same : q.around value ++ rest = q'.around value' ++ rest') :
    q = q' ∧ value = value' ∧ rest = rest' := by
  rw [around, around, List.cons_append, List.cons_append, List.cons.injEq] at same
  obtain ⟨quotes, bodies⟩ := same
  obtain rfl := char_injective quotes
  rw [List.append_assoc, List.append_assoc] at bodies
  exact ⟨rfl, Quoted.body_eq_of_append bodies⟩

end SyntaxForest
