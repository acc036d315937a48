import SyntaxForest.Numeric.Binary64

/-!
# JSON values

Values keep what a text says and equality then leaves out: the order of an object's fields, and
whether a number was written as an integer.  `Json.same` is equality of values: it ignores the
order of fields, tells integers from floats, and compares floats as numbers.
-/

namespace SyntaxForest

/-- A JSON value.  The fields of an object stand in the order in which they were inserted. -/
inductive Json where
  | null
  | bool (b : Bool)
  | int (n : Int)
  | float (x : Binary64)
  | string (s : String)
  | array (items : List Json)
  | object (fields : List (String × Json))
  deriving Inhabited

namespace Json

/-- A number as a value; an infinity or a not-number has no value but `null`. -/
def ofBinary64 (x : Binary64) : Json := if x.isFinite then .float x else .null

/-- Put a field into an object: a new key goes to the end, a known one keeps its place and gets
the new value. -/
def insert (key : String) (value : Json) : List (String × Json) → List (String × Json)
  | [] => [(key, value)]
  | (k, v) :: rest => if k = key then (k, value) :: rest else (k, v) :: insert key value rest

/-- The fields of an object that were given one after the other. -/
def insertAll (fields : List (String × Json)) : List (String × Json) :=
  fields.foldl (fun known field => insert field.1 field.2 known) []

mutual

/-- Equality of values. -/
def same : Json → Json → Bool
  | .null, .null => true
  | .bool a, .bool b => a == b
  | .int m, .int n => m == n
  | .float x, .float y => x.sameNumber y
  | .string s, .string t => s == t
  | .array xs, .array ys => sameItems xs ys
  | .object fs, .object gs => fs.length == gs.length && sameFields fs gs
  | _, _ => false
termination_by structural x => x

/-- Equality of lists of values, place by place. -/
def sameItems : List Json → List Json → Bool
  | [], [] => true
  | x :: xs, y :: ys => same x y && sameItems xs ys
  | _, _ => false
termination_by structural x => x

/-- Whether each of some fields has an equal one among others. -/
def sameFields : List (String × Json) → List (String × Json) → Bool
  | [], _ => true
  | f :: fs, gs => hasField f gs && sameFields fs gs
termination_by structural x => x

/-- Whether some fields give a key an equal value. -/
def hasField : String × Json → List (String × Json) → Bool
  | (key, value), gs =>
    match gs.lookup key with
    | some other => same value other
    | none => false
termination_by structural x => x

end

end Json

end SyntaxForest
