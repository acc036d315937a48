/-!
# Quoted strings

A string value as a token of source text: between two quote characters, with an escape for every
character that could not stand there as it is.  The quote character is a parameter, and only the
quote in use is escaped.
-/

namespace SyntaxForest

namespace Quoted

/-- A hexadecimal digit in upper case. -/
def hexDigit (n : Nat) : Char :=
  if n < 10 then Char.ofNat ('0'.toNat + n) else Char.ofNat ('A'.toNat + (n - 10))

/-- The last four hexadecimal digits of a number. -/
def hexFour (n : Nat) : List Char :=
  [hexDigit (n / 4096 % 16), hexDigit (n / 256 % 16), hexDigit (n / 16 % 16), hexDigit (n % 16)]

/-- A character inside quotes.  The named escapes come before the quote, so a quote that is also
one of them is written by its name. -/
def escape (quote c : Char) : List Char :=
  match c with
  | '\n' => ['\\', 'n']
  | '\r' => ['\\', 'r']
  | '\t' => ['\\', 't']
  | '\\' => ['\\', '\\']
  | '\x00' => ['\\', '0']
  | c =>
    if c == quote then ['\\', c]
    else if c.toNat < 0x20 || c.toNat == 0x7F then '\\' :: 'u' :: hexFour c.toNat
    else [c]

/-- The characters between the quotes. -/
def body (quote : Char) (value : List Char) : List Char := value.flatMap (escape quote)

end Quoted

/-- The token of a string value. -/
def quoted (quote : Char) (value : String) : String :=
  String.ofList (quote :: (Quoted.body quote value.toList ++ [quote]))

end SyntaxForest
