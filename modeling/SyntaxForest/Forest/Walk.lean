import Std.Data.TreeMap
import SyntaxForest.Forest.Basic
import SyntaxForest.Traversal
import SyntaxForest.Traversal.Everywhere
import SyntaxForest.Traversal.Level

/-!
# Walks over a forest

Visiting the nodes of a tree in pre-order, and what follows from it: the list of the nodes and the
first node of each identity.  The height of a tree is computed level by level, and two shapes are
compared pair by pair.

A tree without circles has at most as many levels as its forest has nodes, and one more where a
slot names no node; so with room for as many levels as there are nodes below the root, a walk
reaches everything.

A comparison goes down two trees at once, and can come to an end although one of them runs in a
circle, because the other does not.  A path of pairs that does not repeat has at most as many pairs
of nodes as the sizes of the two forests multiply to, which is the room of a comparison.
-/

namespace SyntaxForest

namespace Forest

/-- What lies directly below a node. -/
def below (f : Forest) (x : NodeIndex) : List NodeIndex := f.children (some x)

/-- Visit the tree of a node in pre-order.  The visitor decides whether the children of a node are
visited as well.  A link that names no node is not visited; a child that is not a node is. -/
def visit {σ : Type} (f : Forest) (visitor : σ → NodeIndex → σ × Bool) (root : Link)
    (state : σ) : σ :=
  match root with
  | some x =>
    if f.contains x then Traversal.walk f.below visitor [(f.size, x)] state else state
  | none => state

/-- The nodes of a tree in pre-order. -/
def preorder (f : Forest) (root : Link) : List NodeIndex :=
  (f.visit (fun seen x => (x :: seen, true)) root []).reverse

/-- The first node of each identity in a tree.  Copies share the identities of what they were
copied from, so the identity of a copied node finds the node it came from. -/
def idMap (f : Forest) (root : Link) : Std.TreeMap Nat NodeIndex :=
  f.visit (fun known x =>
    match f.record? (some x) with
    | some r => (known.insertIfNew r.id x, true)
    | none => (known, true)) root ∅

/-- The number of levels of a tree, one for a leaf; zero for a link that names no node. -/
def height (f : Forest) (root : Link) : Nat :=
  match root with
  | some x => if f.contains x then Traversal.countLevels f.below f.size [x] 0 else 0
  | none => 0

/-- The height of a tree is the number of levels that recursion finds. -/
theorem height_some (f : Forest) (x : NodeIndex) :
    f.height (some x) = if f.contains x then Traversal.levels f.below f.size x else 0 := by
  simp [height, Traversal.countLevels_eq]

/-- The most levels that cloning, printing and records accept. -/
def maxHeight : Nat := 1000

/-- Refuse a tree with too many levels. -/
def checkHeight (f : Forest) (root : Link) : Except TreeError Unit :=
  if maxHeight < f.height root then .error (.depthLimitExceeded maxHeight) else .ok ()

/-- Pairs of links are ordered by the first, then by the second. -/
instance : Ord (Link × Link) := lexOrd

/-- The pairs of children of two nodes.  The last comes first: lists of children grow at their
ends, which is where two trees differ most often. -/
def pairsBelow (f g : Forest) (pair : Link × Link) : List (Link × Link) :=
  (((f.children pair.1).zip (g.children pair.2)).map fun (x, y) => (some x, some y)).reverse

/-- Whether two links agree in the kinds of their nodes and the numbers of their children. -/
def agree (f g : Forest) (pair : Link × Link) : Bool :=
  f.kind? pair.1 == g.kind? pair.2 &&
    (f.children pair.1).length == (g.children pair.2).length

/-- Whether two trees, which may stand in different forests, have the same kinds in the same
places.  Nothing but kinds and numbers of children is compared. -/
def sameShape (f : Forest) (x : Link) (g : Forest) (y : Link) : Bool :=
  Traversal.everywhere (pairsBelow f g) (agree f g) (f.size * g.size) (x, y)

end Forest

end SyntaxForest
