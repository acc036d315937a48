/-!
# Node indices and links

A node is named by its place in its forest.  A link is such a name or none: the occupant of a slot,
the parent of a root, and every argument that a caller may leave empty.  Neither promises that the
forest has a node at that place.
-/

namespace SyntaxForest

/-- The place of a node in its forest. -/
abbrev NodeIndex := Nat

/-- A node index, or none. -/
abbrev Link := Option NodeIndex

instance : LawfulBEq Link := inferInstance

/-- The link as messages write it. -/
def Link.text : Link → String
  | none => "NodeIndex(NONE)"
  | some index => "NodeIndex(" ++ toString index ++ ")"

/-- The identity of a node is a number, counted from one; zero is no identity. -/
def noId : Nat := 0

/-- An identity as text. -/
def idText (id : Nat) : String := "#" ++ toString id

/-- The offset of something that was never recorded. -/
def noPosition : Int32 := -1

end SyntaxForest
