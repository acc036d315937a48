import SyntaxForest.Forest.Walk

/-!
# Outlines

The dump of a tree with a line for each node: its kind and its range, indented by two blanks for
each level below the node where the dump starts.  Levels are counted by the ancestors of a node,
relative to those of the first.
-/

namespace SyntaxForest

namespace Outline

/-- A dump so far: its text, and the number of ancestors of its first node. -/
structure Dump where
  text : String := ""
  base : Option Nat := none

/-- The line of a node, at a level. -/
def line (h : Header) (level : Nat) : String :=
  String.ofList (List.replicate (2 * level) ' ') ++ h.kind.toString ++ " " ++
    toString h.pos.toInt ++ " " ++ toString h.len.toInt ++ "\n"

/-- Add the line of a node.  An index that is no node gets no line. -/
def visitor (f : Forest) (dump : Dump) (x : NodeIndex) : Dump × Bool :=
  match f.header? x with
  | none => (dump, false)
  | some h =>
    let depth := f.depth x
    let base := dump.base.getD depth
    ({ text := dump.text ++ line h (depth - base), base := some base }, true)

end Outline

/-- The outline of a tree, empty for a link that names no node. -/
def Forest.outline (f : Forest) (root : Link) : String :=
  (f.visit (Outline.visitor f) root {}).text

end SyntaxForest
