/-!
# Edit status

How a node stands to a baseline tree, as an annotator marks it.  A forest stores and repeats these
marks; it never computes one.
-/

namespace SyntaxForest

/-- The status of a node relative to a baseline. -/
inductive Change where
  | inserted
  | deleted
  | updated
  | moved
  | unchanged
  | unknown
  deriving DecidableEq, Repr

namespace Change

/-- A node that no annotator has looked at has status `unknown`. -/
instance : Inhabited Change := ⟨.unknown⟩

/-- Every status, once. -/
def all : List Change := [.inserted, .deleted, .updated, .moved, .unchanged, .unknown]

/-- The upper-case name of the status, in records and in the stored form alike. -/
def name : Change → String
  | .inserted => "INSERTED"
  | .deleted => "DELETED"
  | .updated => "UPDATED"
  | .moved => "MOVED"
  | .unchanged => "UNCHANGED"
  | .unknown => "UNKNOWN"

/-- The status of a given name. -/
def ofName? (s : String) : Option Change := all.find? (·.name == s)

/-- Each status has a name of its own. -/
theorem ofName?_name (c : Change) : ofName? c.name = some c := by
  cases c <;> decide +kernel

/-- Whether the status says that the node differs from the baseline. -/
def differs : Change → Bool
  | .inserted | .deleted | .updated | .moved => true
  | .unchanged | .unknown => false

end Change

end SyntaxForest
