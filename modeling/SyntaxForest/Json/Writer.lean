import SyntaxForest.Json.Basic
import SyntaxForest.Numeric.Layout

/-!
# Writing JSON

The compact text of a value: no blanks, fields in their order.  The writer puts a value in front
of the text that follows it, so that writing is linear and a reader can be stated against it.
-/

namespace SyntaxForest

namespace Json

/-- Floats have a point among their digits from `0.00001` up to `1e+16`; beyond, a power of ten
carries its sign.  A half goes to the even digit. -/
def floats : Layout := ⟨-5, ['+'], .even⟩

/-- A hexadecimal digit in lower case. -/
def hexDigit (n : Nat) : Char :=
  if n < 10 then Char.ofNat ('0'.toNat + n) else Char.ofNat ('a'.toNat + (n - 10))

/-- A character inside a string.  Only quotes, backslashes and control characters below the blank
are escaped. -/
def escape (c : Char) : List Char :=
  match c with
  | '"' => ['\\', '"']
  | '\\' => ['\\', '\\']
  | '\x08' => ['\\', 'b']
  | '\x0C' => ['\\', 'f']
  | '\n' => ['\\', 'n']
  | '\r' => ['\\', 'r']
  | '\t' => ['\\', 't']
  | c =>
    if c.toNat < 0x20 then
      ['\\', 'u', '0', '0', hexDigit (c.toNat / 16), hexDigit (c.toNat % 16)]
    else [c]

/-- A string, with its quotes. -/
def writeString (s : String) (rest : List Char) : List Char :=
  '"' :: s.toList.foldr (fun c cs => escape c ++ cs) ('"' :: rest)

/-- An integer. -/
def writeInt (n : Int) (rest : List Char) : List Char :=
  (if n < 0 then ['-'] else []) ++ Decimal.digitsOf n.natAbs ++ rest

/-- A float; one that is not finite has no text but `null`. -/
def writeFloat (x : Binary64) (rest : List Char) : List Char :=
  (if x.isFinite then floats.finite x else "null".toList) ++ rest

mutual

/-- The text of a value, in front of the rest of a text. -/
def write : Json → List Char → List Char
  | .null, rest => 'n' :: 'u' :: 'l' :: 'l' :: rest
  | .bool true, rest => 't' :: 'r' :: 'u' :: 'e' :: rest
  | .bool false, rest => 'f' :: 'a' :: 'l' :: 's' :: 'e' :: rest
  | .int n, rest => writeInt n rest
  | .float x, rest => writeFloat x rest
  | .string s, rest => writeString s rest
  | .array [], rest => '[' :: ']' :: rest
  | .array (x :: xs), rest => '[' :: write x (writeItems xs rest)
  | .object [], rest => '\x7b' :: '\x7d' :: rest
  | .object (f :: fs), rest => '\x7b' :: writeField f (writeFields fs rest)
termination_by structural x => x

/-- The remaining items of an array, each behind its comma, and the closing bracket. -/
def writeItems : List Json → List Char → List Char
  | [], rest => ']' :: rest
  | x :: xs, rest => ',' :: write x (writeItems xs rest)
termination_by structural x => x

/-- The remaining fields of an object, each behind its comma, and the closing brace. -/
def writeFields : List (String × Json) → List Char → List Char
  | [], rest => '\x7d' :: rest
  | f :: fs, rest => ',' :: writeField f (writeFields fs rest)
termination_by structural x => x

/-- A key, a colon and a value. -/
def writeField : String × Json → List Char → List Char
  | (key, value), rest => writeString key (':' :: write value rest)
termination_by structural x => x

end

/-- The text of a value. -/
def text (value : Json) : String := String.ofList (write value [])

end Json

end SyntaxForest
