import Mathlib.Data.List.Chain
import SyntaxForest.Json.Reader
import SyntaxForest.Proofs.Forms
import SyntaxForest.Proofs.Lexemes
import SyntaxForest.Proofs.Lines
import SyntaxForest.Proofs.Recording

/-!
# String tokens

How a string literal is read.  A reader takes the characters up to the first quote that no backslash
stands in front of (`Quoted.split?`), and then the value of what is between the quotes
(`Quoted.value?`).  There `\0` stands for the character zero only if no decimal digit follows.

What is written for a character is one escape or the character, so quoted strings are split where
they should be (`Quoted.split?_body`).  The value is read back exactly if no zero is followed by a
digit (`Quoted.value?_body`): the writer looks at one character at a time and the reader at two.
-/

namespace SyntaxForest

namespace Quoted

/-! ## Reading -/

/-- The characters in front of the first quote without a backslash, and those behind it. -/
def split? (quote : Char) : List Char → Option (List Char × List Char)
  | [] => none
  | '\\' :: c :: rest => (split? quote rest).map fun (body, behind) => ('\\' :: c :: body, behind)
  | c :: rest =>
    if c = quote then some ([], rest)
    else (split? quote rest).map fun (body, behind) => (c :: body, behind)

/-- The character with a code of four hexadecimal digits.  Halves of surrogate pairs are no
characters. -/
def hexFour? (a b c d : Char) : Option Char := do
  let a ← Json.hexValue? a
  let b ← Json.hexValue? b
  let c ← Json.hexValue? c
  let d ← Json.hexValue? d
  let code := ((a * 16 + b) * 16 + c) * 16 + d
  if code.isValidChar then some (Char.ofNat code) else none

/-- The value of what stands between quotes.  No line ends in it. -/
def value? : List Char → Option (List Char)
  | [] => some []
  | '\\' :: 'n' :: rest => (value? rest).map ('\n' :: ·)
  | '\\' :: 'r' :: rest => (value? rest).map ('\r' :: ·)
  | '\\' :: 't' :: rest => (value? rest).map ('\t' :: ·)
  | '\\' :: '\\' :: rest => (value? rest).map ('\\' :: ·)
  | '\\' :: '\x27' :: rest => (value? rest).map ('\x27' :: ·)
  | '\\' :: '"' :: rest => (value? rest).map ('"' :: ·)
  | '\\' :: '0' :: rest =>
    if rest.head?.any Char.isDigit then none else (value? rest).map ('\x00' :: ·)
  | '\\' :: 'u' :: a :: b :: c :: d :: rest =>
    (hexFour? a b c d).bind fun char => (value? rest).map (char :: ·)
  | c :: rest =>
    if c = '\\' ∨ c = '\n' ∨ c = '\r' then none else (value? rest).map (c :: ·)

/-! ## Where a string ends -/

variable {quote : Char}

theorem split?_cons {c : Char} (backslash : c ≠ '\\') (other : c ≠ quote) (rest : List Char) :
    split? quote (c :: rest) =
      (split? quote rest).map fun (body, behind) => (c :: body, behind) := by
  simp [split?, backslash, other]

/-- Characters that are neither the quote nor a backslash are taken. -/
theorem split?_append {plain : List Char} (h : ∀ c ∈ plain, c ≠ '\\' ∧ c ≠ quote)
    (rest : List Char) : split? quote (plain ++ rest) =
      (split? quote rest).map fun (body, behind) => (plain ++ body, behind) := by
  induction plain with
  | nil => simp
  | cons c plain ih =>
    obtain ⟨⟨backslash, other⟩, more⟩ := List.forall_mem_cons.mp h
    rw [List.cons_append, split?_cons backslash other, ih more, Option.map_map]
    rfl

theorem hexFour_plain (q : Quote) (n : Nat) : ∀ c ∈ hexFour n, c ≠ '\\' ∧ c ≠ q.char := by
  have digits : ∀ n < 16, ∀ q : Quote, hexDigit n ≠ '\\' ∧ hexDigit n ≠ q.char := by
    intro n hn q
    cases q <;> revert n <;> decide
  have digit (n : Nat) := digits (n % 16) (Nat.mod_lt n (by decide)) q
  simpa [hexFour] using ⟨digit _, digit _, digit _, digit n⟩

/-- What is written for a character is taken as a whole. -/
theorem split?_escape (q : Quote) (c : Char) (rest : List Char) :
    split? q.char (escape q.char c ++ rest) =
      (split? q.char rest).map fun (body, behind) => (escape q.char c ++ body, behind) := by
  unfold escape
  split
  · rfl
  · rfl
  · rfl
  · rfl
  · rfl
  · next backslash _ =>
    split
    · rfl
    · next other =>
      split
      · rw [List.cons_append, List.cons_append, split?, split?_append (hexFour_plain q _),
          Option.map_map]
        rfl
      · exact split?_cons backslash (fun same => other (beq_iff_eq.mpr same)) rest

/-- **A quoted string ends with the first quote that no backslash stands in front of.** -/
theorem split?_body (q : Quote) (value rest : List Char) :
    split? q.char (body q.char value ++ q.char :: rest) = some (body q.char value, rest) := by
  induction value with
  | nil =>
    have own : q.char ≠ '\\' := q.backslash_ne.symm
    simp [body, split?, own]
  | cons c value ih =>
    rw [body, List.flatMap_cons, List.append_assoc, split?_escape]
    rw [body] at ih
    rw [ih]
    rfl

/-! ## The value of a string -/

theorem hexValue?_hexDigit : ∀ n < 16, Json.hexValue? (hexDigit n) = some n := by decide

/-- Four digits are read back. -/
theorem hexFour?_hexFour {c : Char} (h : c.toNat < 0x10000) :
    hexFour? (hexDigit (c.toNat / 4096 % 16)) (hexDigit (c.toNat / 256 % 16))
      (hexDigit (c.toNat / 16 % 16)) (hexDigit (c.toNat % 16)) = some c := by
  have digit (n : Nat) : Json.hexValue? (hexDigit (n % 16)) = some (n % 16) :=
    hexValue?_hexDigit _ (Nat.mod_lt n (by decide))
  have code : ((c.toNat / 4096 % 16 * 16 + c.toNat / 256 % 16) * 16 + c.toNat / 16 % 16) * 16 +
      c.toNat % 16 = c.toNat := by omega
  simp only [hexFour?, digit, Option.bind_eq_bind, Option.bind_some, code, Char.ofNat_toNat]
  exact if_pos c.valid

theorem isDigit_eq_false_of_control {c : Char} (h : c.toNat < 0x20 ∨ c.toNat = 0x7F) :
    c.isDigit = false := by
  by_contra digit
  have bounds : 48 ≤ c.toNat ∧ c.toNat ≤ 57 := by
    simpa [Char.isDigit, UInt32.le_iff_toNat_le] using digit
  omega

/-- What is written for a character starts with a digit only if it is the digit. -/
theorem head?_escape (q : Quote) (c : Char) (rest : List Char) :
    (escape q.char c ++ rest).head?.any Char.isDigit = c.isDigit := by
  unfold escape
  split
  · rfl
  · rfl
  · rfl
  · rfl
  · rfl
  · split
    · next quote =>
      obtain rfl := beq_iff_eq.mp quote
      cases q <;> rfl
    · split
      · next control =>
        simp only [Bool.or_eq_true, decide_eq_true_eq, beq_iff_eq] at control
        rw [isDigit_eq_false_of_control control]
        rfl
      · rfl

/-- A character is read back, unless it is zero and a digit follows. -/
theorem value?_escape (q : Quote) (c : Char) (rest : List Char) :
    value? (escape q.char c ++ rest) =
      if c = '\x00' ∧ rest.head?.any Char.isDigit then none else (value? rest).map (c :: ·) := by
  unfold escape
  split
  · rfl
  · rfl
  · rfl
  · rfl
  · simp [value?]
  · next newline return_ _ backslash zero =>
    have apart : ¬ (c = '\x00' ∧ rest.head?.any Char.isDigit) := fun both => zero both.1
    rw [if_neg apart]
    split
    · next quote =>
      obtain rfl := beq_iff_eq.mp quote
      cases q <;> rfl
    · split
      · next control =>
        simp only [Bool.or_eq_true, decide_eq_true_eq, beq_iff_eq] at control
        show (hexFour? _ _ _ _).bind _ = _
        rw [hexFour?_hexFour (by omega)]
        rfl
      · have plain : ¬ (c = '\\' ∨ c = '\n' ∨ c = '\r') := by
          rintro (same | same | same)
          · exact backslash same
          · exact newline same
          · exact return_ same
        rw [List.singleton_append, value?.eq_def]
        split <;> simp_all

/-- No zero is followed by a digit. -/
def ZerosApart (value : List Char) : Prop :=
  value.IsChain fun a b => ¬ (a = '\x00' ∧ b.isDigit)

instance (value : List Char) : Decidable (ZerosApart value) :=
  inferInstanceAs (Decidable (value.IsChain _))

theorem zerosApart_cons {c : Char} {value : List Char} :
    ZerosApart (c :: value) ↔ ¬ (c = '\x00' ∧ value.head?.any Char.isDigit) ∧ ZerosApart value := by
  rw [ZerosApart, List.isChain_cons]
  cases value <;> simp [ZerosApart]

/-- **A quoted string has the value that it was written for, if no zero is followed by a digit, and
no value otherwise.** -/
theorem value?_body (q : Quote) (value : List Char) :
    value? (body q.char value) = if ZerosApart value then some value else none := by
  induction value with
  | nil => rfl
  | cons c value ih =>
    have next : (body q.char value).head?.any Char.isDigit = value.head?.any Char.isDigit := by
      cases value with
      | nil => rfl
      | cons c' value => rw [body, List.flatMap_cons, head?_escape]; rfl
    rw [body, List.flatMap_cons, value?_escape]
    show (if c = '\x00' ∧ (body q.char value).head?.any Char.isDigit then none
      else (value? (body q.char value)).map (c :: ·)) = _
    rw [next, ih]
    by_cases zero : c = '\x00' ∧ value.head?.any Char.isDigit
    · rw [if_pos zero, if_neg fun apart => (zerosApart_cons.mp apart).1 zero]
    · rw [if_neg zero]
      by_cases apart : ZerosApart value
      · rw [if_pos apart, if_pos (zerosApart_cons.mpr ⟨zero, apart⟩)]
        rfl
      · rw [if_neg apart, if_neg fun both => apart (zerosApart_cons.mp both).2]
        rfl

end Quoted

/-! ## Leaves -/

namespace Assembly

variable {α β : Type} {a : Assembly α β} {job : β}

/-- A job without parts is done by its recipe. -/
theorem run_of_no_parts (hparts : a.parts job = .ok []) {result : α}
    (hrecipe : a.recipe job = .done result) (room : Nat) : a.run room job = .ok result := by
  have nothing : openings room ([] : List β) = [] := by cases room <;> rfl
  have done : a.perform [.opening room job] ∅ = .ok ((∅ : Desk α).insert (a.node job) result) := by
    rw [perform_opening hparts, nothing, List.nil_append, perform_closing, hrecipe]
    exact perform_nil
  refine run_of_perform done ?_
  rw [Desk.getElem?_insert, if_pos rfl]

end Assembly

namespace Forest

variable (f : Forest) {x : NodeIndex}

/-- Nothing is too high that has nothing below it. -/
theorem checkHeight_of_below_eq_nil (h : f.below x = []) : f.checkHeight (some x) = .ok () := by
  have one (room : Nat) : Traversal.levels f.below room x = 1 := by
    cases room with
    | zero => rfl
    | succ room => rw [Traversal.levels, h]; rfl
  have low : f.height (some x) ≤ 1 := by
    rw [height_some, one]
    split <;> decide
  exact if_neg (Nat.not_lt.mpr (low.trans (by decide)))

/-- What has no links is recorded with its own fields and those of the annotator. -/
theorem record_leaf {c : Contents} (hc : f.contents? (some x) = some c) (below : c.children = [])
    (leaf : Interchange.embedded c = []) {own : Interchange.Fields}
    (fields : Interchange.ofContents c = .done own) : f.record (some x) =
      .ok (.object (own ++ Interchange.trailer ((f.record? (some x)).getD {}))) := by
  obtain ⟨header, hheader, held⟩ := Option.bind_eq_some_iff.mp hc
  have parts : (Interchange.assembly f).parts x = .ok [] := by
    show Interchange.parts f x = _
    rw [Interchange.parts_eq hheader, held, Option.map_some, leaf]
    rfl
  rw [record, checkHeight_of_below_eq_nil f ((children_of_contents? hc).trans below)]
  refine Assembly.run_of_no_parts parts ?_ f.size
  show Interchange.recipe f x = _
  rw [Interchange.recipe, hheader]
  simp only [held, fields]
  rfl

variable {c : Contents.StringLiteral} (hc : f.contents? (some x) = some (.stringLiteral c))
include hc

/-- A string is printed as its token. -/
theorem print_string (o : PrinterOptions) (depth : Nat) :
    f.print o (some x) depth = .ok (o.indent depth ++ quoted c.quote c.value) := by
  obtain ⟨header, hheader, held⟩ := Option.bind_eq_some_iff.mp hc
  have below : f.below x = [] := children_of_contents? hc
  have parts : (Printer.assembly f o).parts ⟨x, depth⟩ = .ok [] := by
    show Printer.parts f ⟨x, depth⟩ = _
    rw [Printer.parts_eq hheader, below]
    rfl
  rw [print, checkHeight_of_below_eq_nil f below]
  refine Assembly.run_of_no_parts parts ?_ f.size
  show Printer.recipe f o ⟨x, depth⟩ = _
  rw [Printer.recipe, hheader]
  simp only [held]
  rfl

/-- A string is recorded with its value and its token. -/
theorem record_string : f.record (some x) = .ok (.object (
    [("type", .string Kind.stringLiteral.recordType), ("value", .string c.value),
      ("raw", .string (quoted c.quote c.value))] ++
        Interchange.trailer ((f.record? (some x)).getD {}))) :=
  f.record_leaf hc rfl rfl rfl

end Forest

open Quoted

/-- **Strings are read back where no zero is followed by a digit.**  What is printed for a string
between single or double quotes, and recorded as its token, starts with the quote and ends where the
quote stands next without a backslash; no line ends in between.  Its value is the string, unless a
zero is followed by a decimal digit: then the token has no value. -/
theorem Forest.string_token (f : Forest) {x : NodeIndex} {c : Contents.StringLiteral}
    (hc : f.contents? (some x) = some (.stringLiteral c)) {q : Quote} (hq : c.quote = q.char)
    (o : PrinterOptions) :
    ∃ body, f.print o (some x) 0 = .ok (String.ofList (q.char :: (body ++ [q.char]))) ∧
      (∃ record, f.record (some x) = .ok record ∧ record.at? [.field "raw"] =
        some (.string (String.ofList (q.char :: (body ++ [q.char]))))) ∧
      isUnbroken body ∧ split? q.char (body ++ [q.char]) = some (body, []) ∧
      value? body = if ZerosApart c.value.toList then some c.value.toList else none := by
  have token : quoted c.quote c.value =
      String.ofList (q.char :: (body q.char c.value.toList ++ [q.char])) := by
    rw [quoted, hq]
  have unbroken : isUnbroken [q.char] := by cases q <;> decide
  refine ⟨body q.char c.value.toList, ?_, ?_, isUnbroken_body unbroken _, split?_body q _ [],
    value?_body q _⟩
  · rw [f.print_string hc, token, PrinterOptions.indent_eq]
    rfl
  · rw [← token]
    exact ⟨_, f.record_string hc, by simp [Json.at?, List.lookup_cons]⟩

/-- A string of a zero and a digit, and a string with a zero, a quote and a line end. -/
def Command.strings : List (Nat × Command) :=
  [(1, .construct (.string 0 0 "\x001" '\x27')), (2, .construct (.string 0 0 "1\x00\x27\n" '\x27'))]

/-- The second string is read back. -/
theorem string_token_strings : ∃ body,
    (Command.perform Command.strings).1.print {} (some 1) 0 =
        .ok (String.ofList ('\x27' :: (body ++ ['\x27']))) ∧
      split? '\x27' (body ++ ['\x27']) = some (body, []) ∧
      value? body = some "1\x00\x27\n".toList := by
  have held : (Command.perform Command.strings).1.contents? (some 1) =
      some (.stringLiteral ⟨"1\x00\x27\n", '\x27'⟩) := by
    decide +kernel
  obtain ⟨body, printed, -, -, ends, value⟩ :=
    Forest.string_token (Command.perform Command.strings).1 held (q := .single) rfl {}
  exact ⟨body, printed, ends, value⟩

/-- **Where a digit follows a zero, a string is not read back**: the escape of the zero takes the
digit. -/
theorem string_token_not_read_back : ∃ f loose x c body, Reached f loose ∧
    f.contents? (some x) = some (.stringLiteral c) ∧ c.value = "\x001" ∧ c.quote = '\x27' ∧
      f.toSource (some x) = .ok (String.ofList ('\x27' :: (body ++ ['\x27']))) ∧
      body = ['\\', '0', '1'] ∧ value? body = none := by
  have held : (Command.perform Command.strings).1.contents? (some 0) =
      some (.stringLiteral ⟨"\x001", '\x27'⟩) := by
    decide +kernel
  refine ⟨_, _, 0, _, _, reached_perform Command.strings, held, rfl, rfl, ?_, rfl, rfl⟩
  rw [Forest.toSource, Forest.print_string _ held]
  decide +kernel

end SyntaxForest
