import SyntaxForest.Json.Raw

/-!
# Reading JSON

A reader for the JSON grammar over a list of characters.  Each part returns what it has read with
the rest of the text; `Raw.parse?` reads a whole text and leaves nothing but blanks over.

Strings are read by a machine that takes one character at a time.  It remembers a high surrogate
until the next character tells whether the low half follows; if it does not, the string is
well-formed and has no value.
-/

namespace SyntaxForest

namespace Json

/-- A text without the blanks in front. -/
def skipBlanks (cs : List Char) : List Char :=
  cs.dropWhile fun c => c == ' ' || c == '\n' || c == '\t' || c == '\r'

/-! ## Strings -/

/-- Where a reader stands inside a string: among plain characters, behind a backslash, or with
some digits of a code still to come. -/
inductive Place where
  | plain
  | escape
  | code (missing : Nat) (value : Nat)

/-- What a reader knows of a string: its characters so far, last first, a high surrogate that
waits for its other half, and whether every surrogate before found its own. -/
structure Scan where
  done : List Char
  pending : Option Nat
  sound : Bool

namespace Scan

/-- Nothing read yet. -/
def start : Scan := ⟨[], none, true⟩

/-- A character that is no surrogate. -/
def push (s : Scan) (c : Char) : Scan := ⟨c :: s.done, none, s.sound && s.pending.isNone⟩

/-- A code of four digits: a character, or half of one. -/
def code (s : Scan) (n : Nat) : Scan :=
  if 0xD800 ≤ n ∧ n < 0xDC00 then ⟨s.done, some n, s.sound && s.pending.isNone⟩
  else if 0xDC00 ≤ n ∧ n < 0xE000 then
    match s.pending with
    | some high =>
      ⟨Char.ofNat (0x10000 + (high - 0xD800) * 0x400 + (n - 0xDC00)) :: s.done, none, s.sound⟩
    | none => ⟨s.done, none, false⟩
  else s.push (Char.ofNat n)

/-- The text of a string that has come to its end. -/
def finish (s : Scan) : Option String :=
  if s.sound && s.pending.isNone then some (String.ofList s.done.reverse) else none

end Scan

/-- The value of a hexadecimal digit of either case. -/
def hexValue? (c : Char) : Option Nat :=
  if '0' ≤ c ∧ c ≤ '9' then some (c.toNat - '0'.toNat)
  else if 'a' ≤ c ∧ c ≤ 'f' then some (c.toNat - 'a'.toNat + 10)
  else if 'A' ≤ c ∧ c ≤ 'F' then some (c.toNat - 'A'.toNat + 10)
  else none

/-- The character that a letter behind a backslash stands for. -/
def named? : Char → Option Char
  | '"' => some '"'
  | '\\' => some '\\'
  | '/' => some '/'
  | 'b' => some '\x08'
  | 'f' => some '\x0C'
  | 'n' => some '\n'
  | 'r' => some '\r'
  | 't' => some '\t'
  | _ => none

/-- The rest of a string behind its opening quote. -/
def readString : Place → Scan → List Char → Option (Option String × List Char)
  | _, _, [] => none
  | .plain, s, c :: cs =>
    if c == '"' then some (s.finish, cs)
    else if c == '\\' then readString .escape s cs
    else if c.toNat < 0x20 then none
    else readString .plain (s.push c) cs
  | .escape, s, c :: cs =>
    if c == 'u' then readString (.code 4 0) s cs
    else
      match named? c with
      | some d => readString .plain (s.push d) cs
      | none => none
  | .code missing value, s, c :: cs =>
    match hexValue? c with
    | none => none
    | some digit =>
      if missing ≤ 1 then readString .plain (s.code (16 * value + digit)) cs
      else readString (.code (missing - 1) (16 * value + digit)) s cs

/-! ## Numbers -/

/-- The digits in front of a text, at least one. -/
def readDigits (cs : List Char) : Option (List Char × List Char) :=
  let digits := cs.takeWhile Decimal.isDigit
  if digits.isEmpty then none else some (digits, cs.dropWhile Decimal.isDigit)

/-- The digits behind a point, if there is a point. -/
def readFraction : List Char → Option (Option (List Char) × List Char)
  | '.' :: cs => (readDigits cs).map fun (digits, rest) => (some digits, rest)
  | cs => some (none, cs)

/-- The power of ten behind an `e`, if there is one. -/
def readPower : List Char → Option (Option Int × List Char)
  | c :: cs =>
    if c == 'e' || c == 'E' then
      let (negative, cs) := match cs with
        | '-' :: cs => (true, cs)
        | '+' :: cs => (false, cs)
        | cs => (false, cs)
      (readDigits cs).map fun (digits, rest) =>
        let n : Int := Decimal.natOfDigits digits
        (some (if negative then -n else n), rest)
    else some (none, c :: cs)
  | [] => some (none, [])

/-- A number behind its sign.  A zero in front stands alone before the point. -/
def readNumber (negative : Bool) (cs : List Char) : Option (Raw × List Char) := do
  let (whole, rest) ← readDigits cs
  if whole.head? == some '0' && whole.length != 1 then none
  let (fraction, rest) ← readFraction rest
  let (power, rest) ← readPower rest
  some (.number ⟨negative, whole, fraction, power⟩, rest)

/-! ## Values -/

/-- The rest of a text behind a word. -/
def expect (word cs : List Char) : Option (List Char) :=
  if word.isPrefixOf cs then some (cs.drop word.length) else none

mutual

/-- A value in front of a text.  The first argument bounds the number of steps; the length of the
text is enough. -/
def readValue : Nat → List Char → Option (Raw × List Char)
  | 0, _ => none
  | steps + 1, cs =>
    match skipBlanks cs with
    | 'n' :: cs => (expect "ull".toList cs).map (Raw.null, ·)
    | 't' :: cs => (expect "rue".toList cs).map (Raw.bool true, ·)
    | 'f' :: cs => (expect "alse".toList cs).map (Raw.bool false, ·)
    | '"' :: cs => (readString .plain .start cs).map fun (s, rest) => (.string s, rest)
    | '[' :: cs =>
      match skipBlanks cs with
      | ']' :: rest => some (.array [], rest)
      | cs => readItems steps cs []
    | '\x7b' :: cs =>
      match skipBlanks cs with
      | '\x7d' :: rest => some (.object [], rest)
      | cs => readFields steps cs []
    | '-' :: cs => readNumber true cs
    | cs => readNumber false cs

/-- The items of an array from one item on, with those before it, last first. -/
def readItems : Nat → List Char → List Raw → Option (Raw × List Char)
  | 0, _, _ => none
  | steps + 1, cs, before =>
    match readValue steps cs with
    | none => none
    | some (item, rest) =>
      match skipBlanks rest with
      | ',' :: rest => readItems steps rest (item :: before)
      | ']' :: rest => some (.array (item :: before).reverse, rest)
      | _ => none

/-- The fields of an object from one field on, with those before it, last first. -/
def readFields : Nat → List Char → List (Option String × Raw) → Option (Raw × List Char)
  | 0, _, _ => none
  | steps + 1, cs, before =>
    match skipBlanks cs with
    | '"' :: cs =>
      match readString .plain .start cs with
      | none => none
      | some (key, rest) =>
        match skipBlanks rest with
        | ':' :: rest =>
          match readValue steps rest with
          | none => none
          | some (item, rest) =>
            match skipBlanks rest with
            | ',' :: rest => readFields steps rest ((key, item) :: before)
            | '\x7d' :: rest => some (.object ((key, item) :: before).reverse, rest)
            | _ => none
        | _ => none
    | _ => none

end

/-- A whole text. -/
def Raw.parse? (text : String) : Option Raw :=
  let cs := text.toList
  match readValue (cs.length + 1) cs with
  | some (raw, rest) => if (skipBlanks rest).isEmpty then some raw else none
  | none => none

/-- The value of a whole text. -/
def parse? (text : String) : Option Json := (Raw.parse? text).bind Raw.value?

end Json

end SyntaxForest
