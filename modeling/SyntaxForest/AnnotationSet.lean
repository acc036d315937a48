import SyntaxForest.Json.Basic

/-!
# Annotation sets

Records of an annotator, in the order of their first insertion.  The forest stores and repeats
them and never looks inside.  Equality of records is equality of JSON values, so of several equal
records the first is kept, in its own wording.
-/

namespace SyntaxForest

/-- A list of records.  Sets that are built by insertion hold no two equal ones. -/
structure AnnotationSet where
  records : List Json
  deriving Inhabited

namespace AnnotationSet

/-- No records. -/
def empty : AnnotationSet := ⟨[]⟩

/-- Whether the set has a record equal to this one. -/
def contains (set : AnnotationSet) (record : Json) : Bool := set.records.any (·.same record)

/-- The set with a record, unless it has an equal one. -/
def insert (set : AnnotationSet) (record : Json) : AnnotationSet :=
  if set.contains record then set else ⟨set.records ++ [record]⟩

/-- The set of records inserted one after the other. -/
def ofList (records : List Json) : AnnotationSet := records.foldl insert empty

/-- Insert records one after the other; tells of each whether it went in. -/
def insertAll (set : AnnotationSet) : List Json → AnnotationSet × List Bool
  | [] => (set, [])
  | record :: rest =>
    let (result, inserted) := (set.insert record).insertAll rest
    (result, (!set.contains record) :: inserted)

/-- The set as a JSON array. -/
def toJson (set : AnnotationSet) : Json := .array set.records

end AnnotationSet

end SyntaxForest
