import SyntaxForest.Forest.Build
import SyntaxForest.Forest.Edit
import SyntaxForest.Forest.Walk

/-!
# Cloning

A clone is a copy of a tree in the same forest.  It repeats everything that the source holds, its
identities included, so a node of the clone can be traced back to where it came from.

Copying goes in two passes.  The first copies the nodes in pre-order, children still named as in
the source; the copies therefore stand in the forest in pre-order, behind all that was there.  The
second renames the children of the copies.
-/

namespace SyntaxForest

/-- The copy of each node that has been copied; of several copies, the last. -/
abbrev Copies := Std.TreeMap Nat NodeIndex

namespace Editing

/-- Copy the contents of a node, under a header of their own.  The copy still names the children
of the source. -/
def copyContents (x : NodeIndex) (h : Header) : Editing (Option Nat) := do
  if h.kind.isBare then return none
  match (← get).held? h with
  | none => throw (.unknownNode x)
  | some c =>
    let entry := (← get).nextEntry c
    modify fun f => { f with pools := f.pools.push c }
    return some entry

/-- Copy one node under a parent. -/
def copyNode (x : NodeIndex) (parent : Link) : Editing NodeIndex := do
  let h ← ask (·.header x)
  let entry ← copyContents x h
  match (← get).record? x with
  | none => throw (.unknownNode x)
  | some r =>
    let copy := (← get).size
    modify fun f => { f with
      headers := f.headers.push { h with entry }
      records := f.records.push { r with parent } }
    return copy

/-- Copy a tree in pre-order, with room for a number of levels below its root.

Copying itself knows no such bound, it goes on as long as there are children; the bound is here so
that this is a recursion.  `clone` takes the size of the forest, and no tree is higher than that
when copying starts, so the bound is met only where a tree grows while it is copied.  This takes a
forest that was read: a child that is missing there can be found once enough copies have been made,
and among the copies stand the nodes that led to it, so without the bound copying would go on for
ever.  Wherever copying ends by itself, the bound makes no difference. -/
def copyTree : Nat → Link → Copies → NodeIndex → Editing Copies
  | room, parent, copies, x => do
    let copy ← copyNode x parent
    let copies := copies.insert x copy
    match room with
    | 0 => return copies
    | room + 1 => ((← get).below x).foldlM (copyTree room copy) copies

end Editing

namespace Forest

/-- Rename the children of a node through the copies; a child without a copy is left out. -/
def relink (copies : Copies) (f : Forest) (x : NodeIndex) : Forest :=
  match f.contents? x with
  | some c => f.setContents x (c.mapLinks (·.bind (copies[·]?)))
  | none => f

/-- Rename the children of all nodes from a place on. -/
def relinkFrom (f : Forest) (first : Nat) (copies : Copies) : Forest :=
  (List.range' first (f.size - first)).foldl (relink copies) f

end Forest

namespace Editing

/-- Copy the tree of a node under a parent, or as a tree of its own.  The parent does not store
the copy; an edit has to do that. -/
def clone (x parent : Link) : Editing NodeIndex := do
  let _ ← ask (·.header x)
  if parent.isSome then
    let _ ← ask (·.header parent)
  ask (·.checkHeight x)
  match x with
  | none => throw (.unknownNode x)
  | some source =>
    let before := (← get).size
    let copies ← copyTree before parent ∅ source
    modify (·.relinkFrom before copies)
    match copies[source]? with
    | some copy => return copy
    | none => throw (.unknownNode x)

end Editing

end SyntaxForest
