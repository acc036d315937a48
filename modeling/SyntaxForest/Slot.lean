import SyntaxForest.Kind

/-!
# Slots

The places in which a node holds children: slots for one child each (`ChildSlot`) and lists
(`ListSlot`).  Each slot knows the nodes that have it, whether it may stay empty, and what it
demands of a child, so that one rule of editing serves them all.
-/

namespace SyntaxForest

/-- What an operation demands of the kind of a node. -/
inductive Expectation where
  | kind (k : Kind)
  | container
  | loop
  | conditional
  deriving DecidableEq, Repr

namespace Expectation

/-- Whether a kind meets the demand. -/
def admits : Expectation → Kind → Bool
  | .kind k, found => found == k
  | .container, found => found.isContainer
  | .loop, found => found.isLoop
  | .conditional, found => found == .ifStatement || found == .doLoop || found == .whileLoop

/-- The demand as messages put it. -/
def text : Expectation → String
  | .kind k => k.toString
  | .container => "ArrayLiteral or ObjectLiteral"
  | .loop => "a loop"
  | .conditional => "IfStatement, DoLoop or WhileLoop"

end Expectation

/-- The slots that hold one child. -/
inductive ChildSlot where
  | left
  | right
  | expression
  | condition
  | thenPart
  | elsePart
  | tryBlock
  | finallyBlock
  | varName
  | guard
  | handlerBody
  | body
  | iterator
  | iteratedObject
  deriving DecidableEq, Repr

namespace ChildSlot

/-- The slot as messages name it. -/
def label : ChildSlot → String
  | .left => "left"
  | .right => "right"
  | .expression => "expression"
  | .condition => "condition"
  | .thenPart => "then_part"
  | .elsePart => "else_part"
  | .tryBlock => "try_block"
  | .finallyBlock => "finally_block"
  | .varName => "var_name"
  | .guard => "catch_condition"
  | .handlerBody => "body"
  | .body => "body"
  | .iterator => "iterator"
  | .iteratedObject => "iterated_object"

/-- The nodes that have the slot. -/
def owner : ChildSlot → Expectation
  | .left | .right => .kind .objectProperty
  | .expression => .kind .expressionStatement
  | .condition => .conditional
  | .thenPart | .elsePart => .kind .ifStatement
  | .tryBlock | .finallyBlock => .kind .tryStatement
  | .varName | .guard | .handlerBody => .kind .catchClause
  | .body => .loop
  | .iterator | .iteratedObject => .kind .forInLoop

/-- Whether a complete node has a child in the slot.  The other slots can be emptied again. -/
def isRequired : ChildSlot → Bool
  | .elsePart | .finallyBlock | .guard => false
  | _ => true

end ChildSlot

/-- The slots that hold a list of children. -/
inductive ListSlot where
  | elements
  | statements
  | catchClauses
  deriving DecidableEq, Repr

namespace ListSlot

/-- The list as messages name it. -/
def label : ListSlot → String
  | .elements => "elements"
  | .statements => "statements"
  | .catchClauses => "catch_clauses"

/-- The nodes that have the list. -/
def owner : ListSlot → Expectation
  | .elements => .container
  | .statements => .kind .block
  | .catchClauses => .kind .tryStatement

/-- The kind that the list of a node of a given kind demands of its entries, if it demands one. -/
def entryKind? : ListSlot → Kind → Option Kind
  | .elements, .objectLiteral => some .objectProperty
  | .catchClauses, _ => some .catchClause
  | _, _ => none

end ListSlot

/-- The parts of a node that can lack content, or be filled only once: its slots and lists, and
the token of a number. -/
inductive Part where
  | child (slot : ChildSlot)
  | list (slot : ListSlot)
  | token
  deriving DecidableEq, Repr

/-- The part as messages name it. -/
def Part.label : Part → String
  | .child slot => slot.label
  | .list slot => slot.label
  | .token => "value"

end SyntaxForest
