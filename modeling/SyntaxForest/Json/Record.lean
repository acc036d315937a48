import SyntaxForest.Json.Raw

/-!
# Records in JSON

A record of known fields is written as an object.  It can be read from an object with the fields
in any order and others among them, or from an array with the fields in their order.  In an object
a known field must not stand twice, and one that is missing is `none` here, so that the reader of
the record decides whether it has a default.
-/

namespace SyntaxForest

namespace Json

namespace Raw

/-- The value of a field among those of an object: nothing if it is missing, and no reading at all
if it is repeated. -/
def single? (name : String) (fields : List (String × Raw)) : Option (Option Raw) :=
  match fields.filter (·.1 == name) with
  | [] => some none
  | [(_, value)] => some (some value)
  | _ => none

/-- The fields of an object whose keys all are text. -/
def named? (fields : List (Option String × Raw)) : Option (List (String × Raw)) :=
  fields.mapM fun (key, value) => key.map (·, value)

/-- The fields of a record of which each but the last few is needed in an array. -/
def record? (names : List String) (needed : Nat) : Raw → Option (List (Option Raw))
  | .array items =>
    if needed ≤ items.length ∧ items.length ≤ names.length then
      some (items.map some ++ List.replicate (names.length - items.length) none)
    else none
  | .object fields => do
    let fields ← named? fields
    names.mapM (single? · fields)
  | _ => none

/-- The name of a case without contents: as a string, or as the one key of an object that gives it
`null`. -/
def case? : Raw → Option String
  | .string s => s
  | .object [(key, .null)] => key
  | _ => none

end Raw

end Json

end SyntaxForest
