import SyntaxForest.Link
import SyntaxForest.Slot

/-!
# Errors

The causes for which an operation on a forest fails, and their messages.  Each is a mistake of the
caller that builds the tree; none is recovered from inside the library.
-/

namespace SyntaxForest

/-- The two sets of records that can be attached to a node. -/
inductive Attachment where
  | criteria
  | dependencies
  deriving DecidableEq, Repr

/-- The name of the set. -/
def Attachment.name : Attachment → String
  | .criteria => "criteria"
  | .dependencies => "dependencies"

/-- Why an operation failed. -/
inductive TreeError where
  /-- The link names no node of the forest. -/
  | unknownNode (node : Link)
  /-- A part that a complete node has was given, or still has, no content. -/
  | missingRequiredChild (kind : Kind) (part : Part)
  /-- The operation does not apply to nodes of this kind. -/
  | unexpectedKind (expected : Expectation) (found : Kind)
  /-- A place behind the end of a list. -/
  | indexOutOfBounds (kind : Kind) (slot : ListSlot) (index length : Nat)
  /-- A node stands twice in one list. -/
  | duplicateChild (child : Link) (slot : ListSlot)
  /-- The child would become its own ancestor. -/
  | wouldCreateCycle (parent child : Link)
  /-- A value that is written once was written again. -/
  | valueAlreadySet (kind : Kind) (part : Part)
  /-- The node has its records already. -/
  | annotationsFrozen (node : Link) (attachment : Attachment)
  /-- The tree has more levels than whole-tree operations accept. -/
  | depthLimitExceeded (limit : Nat)
  deriving DecidableEq, Repr

/-- The message of an error. -/
def TreeError.message : TreeError → String
  | .unknownNode node => node.text ++ " does not name a node in this arena"
  | .missingRequiredChild kind part =>
    "required slot `" ++ part.label ++ "` of " ++ kind.toString ++ " is absent"
  | .unexpectedKind expected found => "expected " ++ expected.text ++ ", found " ++ found.toString
  | .indexOutOfBounds kind slot index length =>
    "index " ++ toString index ++ " out of range for `" ++ slot.label ++ "` of " ++ kind.toString ++
      " (length " ++ toString length ++ ")"
  | .duplicateChild child slot => child.text ++ " appears more than once in `" ++ slot.label ++ "`"
  | .wouldCreateCycle parent child =>
    "attaching " ++ child.text ++ " under " ++ parent.text ++ " would create a cycle"
  | .valueAlreadySet kind part =>
    "`" ++ part.label ++ "` of " ++ kind.toString ++ " is already set"
  | .annotationsFrozen node attachment =>
    "`" ++ attachment.name ++ "` annotations of " ++ node.text ++ " are already attached"
  | .depthLimitExceeded limit => "tree is nested deeper than " ++ toString limit ++ " levels"

end SyntaxForest
