import SyntaxForest.Forest.Basic

/-!
# Views

What a reader of a tree sees at one node.  Unlike the queries, which repeat what is stored, a view
leads only to nodes: a parent or child that is lost from the forest does not show.
-/

namespace SyntaxForest

/-- A node with its surroundings. -/
structure NodeView where
  header : Header
  id : Nat
  parent : Link
  /-- The children with their kinds, in structural order. -/
  children : List (NodeIndex × Kind)

namespace Forest

/-- The view of a node. -/
def view? (f : Forest) (x : Link) : Option NodeView :=
  (f.header? x).map fun header =>
    { header
      id := ((f.record? x).map (·.id)).getD noId
      parent := (f.parent x).filter fun p => f.contains (some p)
      children := (f.children x).filterMap fun c => (f.kind? (some c)).map (c, ·) }

end Forest

end SyntaxForest
