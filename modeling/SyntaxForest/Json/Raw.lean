import SyntaxForest.Json.Numeral

/-!
# JSON as read

What a well-formed text says, before its numbers are rounded and its strings are taken as text.
Two things are well-formed and still denote no value: a number beyond the range of the floats, and
a string with half of a surrogate pair.  Where a reader ignores a part of a text they do no harm,
so they are kept here and refused by `Raw.value?`.
-/

namespace SyntaxForest

namespace Json

/-- A JSON text as a tree.  A string without a text value is `none`. -/
inductive Raw where
  | null
  | bool (b : Bool)
  | number (n : Numeral)
  | string (s : Option String)
  | array (items : List Raw)
  | object (fields : List (Option String × Raw))
  deriving Inhabited

namespace Raw

/-- The integer of a number, if it lies between two bounds. -/
def intIn? (least greatest : Int) : Raw → Option Int
  | .number n => n.int?.filter fun i => least ≤ i && i ≤ greatest
  | _ => none

/-- The float of a number. -/
def float? : Raw → Option Binary64
  | .number n => n.float?
  | _ => none

/-- The truth value that the text stands for, if it does. -/
def bool? : Raw → Option Bool
  | .bool b => some b
  | _ => none

/-- The string that the text stands for, if it does. -/
def string? : Raw → Option String
  | .string s => s
  | _ => none

/-- The character of a string that is just one. -/
def char? (raw : Raw) : Option Char :=
  match raw.string?.map String.toList with
  | some [c] => some c
  | _ => none

/-- The items of an array, each read in one way. -/
def list? {α : Type} (read : Raw → Option α) : Raw → Option (List α)
  | .array items => items.mapM read
  | _ => none

/-- Nothing for `null`, and otherwise what one way of reading gives. -/
def optional? {α : Type} (read : Raw → Option α) : Raw → Option (Option α)
  | .null => some none
  | raw => (read raw).map some

mutual

/-- The value of a text, if all its numbers and strings have one. -/
def value? : Raw → Option Json
  | .null => some .null
  | .bool b => some (.bool b)
  | .number n => n.value?
  | .string s => s.map .string
  | .array items => (values? items).map .array
  | .object fields => (fields? fields).map fun fields => .object (insertAll fields)
termination_by structural x => x

/-- The values of the items of an array. -/
def values? : List Raw → Option (List Json)
  | [] => some []
  | raw :: rest =>
    match value? raw, values? rest with
    | some value, some values => some (value :: values)
    | _, _ => none
termination_by structural x => x

/-- The keys and values of an object, repeated keys included. -/
def fields? : List (Option String × Raw) → Option (List (String × Json))
  | [] => some []
  | raw :: rest =>
    match field? raw, fields? rest with
    | some field, some fields => some (field :: fields)
    | _, _ => none
termination_by structural x => x

/-- A key and its value. -/
def field? : Option String × Raw → Option (String × Json)
  | (key, raw) =>
    match key, value? raw with
    | some key, some value => some (key, value)
    | _, _ => none
termination_by structural x => x

end

end Raw

end Json

end SyntaxForest
