import SyntaxForest.Link
import SyntaxForest.Slot
import SyntaxForest.Numeric.Binary64

/-!
# Contents of nodes

What a node holds besides its header: the values of a leaf, the children of a compound, and the
offsets of its punctuation.  There is one structure per kind, and `Contents` is their sum.

Everything that edits, copies or walks a forest sees contents through a few functions:

* `Contents.links`, the links in the order in which traversal, copying and rendering take them;
* `Contents.child?` and `Contents.list?` with `setChild` and `setList`, one slot at a time;
* `Contents.erase`, which takes a child out of wherever it stands;
* `Contents.mapLinks`, which renames the children.
-/

namespace SyntaxForest

namespace Contents

/-- An identifier. -/
structure Name where
  identifier : String := ""
  deriving DecidableEq, Repr, Inhabited

/-- A number: the token it was read from, if there is one, and its value. -/
structure NumberLiteral where
  token : Option String := none
  value : Binary64 := .zero
  deriving DecidableEq, Repr, Inhabited

/-- A string: its value without quotes and escapes, and the quote around it. -/
structure StringLiteral where
  value : String := ""
  quote : Char := '"'
  deriving DecidableEq, Repr, Inhabited

/-- A keyword that stands for a value. -/
structure KeywordLiteral where
  keyword : Keyword := .null
  deriving DecidableEq, Repr, Inhabited

/-- The elements of an array.  An elision is an element of kind `emptyExpression`. -/
structure ArrayLiteral where
  elements : List Link := []
  destructuringLength : Int32 := 0
  skipCount : Int32 := 0
  isDestructuring : Bool := false
  deriving DecidableEq, Repr, Inhabited

/-- The properties of an object. -/
structure ObjectLiteral where
  elements : List Link := []
  isDestructuring : Bool := false
  deriving DecidableEq, Repr, Inhabited

/-- A key and a value inside an object. -/
structure ObjectProperty where
  left : Link := none
  right : Link := none
  deriving DecidableEq, Repr, Inhabited

/-- The statements of a block. -/
structure Block where
  statements : List Link := []
  deriving DecidableEq, Repr, Inhabited

/-- An expression that stands as a statement. -/
structure ExpressionStatement where
  expression : Link := none
  deriving DecidableEq, Repr, Inhabited

/-- A condition with one or two branches. -/
structure IfStatement where
  condition : Link := none
  thenPart : Link := none
  elsePart : Link := none
  elsePosition : Int32 := noPosition
  lp : Int32 := noPosition
  rp : Int32 := noPosition
  deriving DecidableEq, Repr, Inhabited

/-- A guarded block, its handlers, and what is done in every case. -/
structure TryStatement where
  tryBlock : Link := none
  catchClauses : List Link := []
  finallyBlock : Link := none
  finallyPosition : Int32 := noPosition
  deriving DecidableEq, Repr, Inhabited

/-- A handler, which may carry a guard. -/
structure CatchClause where
  varName : Link := none
  guard : Link := none
  body : Link := none
  ifPosition : Int32 := noPosition
  lp : Int32 := noPosition
  rp : Int32 := noPosition
  deriving DecidableEq, Repr, Inhabited

/-- What every loop has. -/
structure Loop where
  body : Link := none
  lp : Int32 := noPosition
  rp : Int32 := noPosition
  labels : List String := []
  deriving DecidableEq, Repr, Inhabited

/-- A loop over the keys, or with `isForEach` the values, of an object. -/
structure ForInLoop where
  loop : Loop := {}
  iterator : Link := none
  iteratedObject : Link := none
  inPosition : Int32 := noPosition
  eachPosition : Int32 := noPosition
  isForEach : Bool := false
  deriving DecidableEq, Repr, Inhabited

/-- A loop that tests behind its body. -/
structure DoLoop where
  loop : Loop := {}
  condition : Link := none
  whilePosition : Int32 := noPosition
  deriving DecidableEq, Repr, Inhabited

/-- A loop that tests before its body. -/
structure WhileLoop where
  loop : Loop := {}
  condition : Link := none
  deriving DecidableEq, Repr, Inhabited

end Contents

/-- What a node of any kind holds.  The bare kinds hold nothing and have no case. -/
inductive Contents where
  | name (c : Contents.Name)
  | numberLiteral (c : Contents.NumberLiteral)
  | stringLiteral (c : Contents.StringLiteral)
  | keywordLiteral (c : Contents.KeywordLiteral)
  | arrayLiteral (c : Contents.ArrayLiteral)
  | objectLiteral (c : Contents.ObjectLiteral)
  | objectProperty (c : Contents.ObjectProperty)
  | block (c : Contents.Block)
  | expressionStatement (c : Contents.ExpressionStatement)
  | ifStatement (c : Contents.IfStatement)
  | tryStatement (c : Contents.TryStatement)
  | catchClause (c : Contents.CatchClause)
  | forInLoop (c : Contents.ForInLoop)
  | doLoop (c : Contents.DoLoop)
  | whileLoop (c : Contents.WhileLoop)
  deriving DecidableEq, Repr

namespace Contents

/-- The kind of the nodes that hold such contents. -/
def kind : Contents → Kind
  | .name _ => .name
  | .numberLiteral _ => .numberLiteral
  | .stringLiteral _ => .stringLiteral
  | .keywordLiteral _ => .keywordLiteral
  | .arrayLiteral _ => .arrayLiteral
  | .objectLiteral _ => .objectLiteral
  | .objectProperty _ => .objectProperty
  | .block _ => .block
  | .expressionStatement _ => .expressionStatement
  | .ifStatement _ => .ifStatement
  | .tryStatement _ => .tryStatement
  | .catchClause _ => .catchClause
  | .forInLoop _ => .forInLoop
  | .doLoop _ => .doLoop
  | .whileLoop _ => .whileLoop

/-- The contents of a new node of a kind: empty slots, empty lists, nothing recorded. -/
def fresh? : Kind → Option Contents
  | .name => some (.name {})
  | .numberLiteral => some (.numberLiteral {})
  | .stringLiteral => some (.stringLiteral {})
  | .keywordLiteral => some (.keywordLiteral {})
  | .emptyExpression => none
  | .arrayLiteral => some (.arrayLiteral {})
  | .objectLiteral => some (.objectLiteral {})
  | .objectProperty => some (.objectProperty {})
  | .block => some (.block {})
  | .expressionStatement => some (.expressionStatement {})
  | .emptyStatement => none
  | .ifStatement => some (.ifStatement {})
  | .tryStatement => some (.tryStatement {})
  | .catchClause => some (.catchClause {})
  | .forInLoop => some (.forInLoop {})
  | .doLoop => some (.doLoop {})
  | .whileLoop => some (.whileLoop {})

/-- The links in structural order, the empty ones included. -/
def links : Contents → List Link
  | .arrayLiteral c => c.elements
  | .objectLiteral c => c.elements
  | .objectProperty c => [c.left, c.right]
  | .block c => c.statements
  | .expressionStatement c => [c.expression]
  | .ifStatement c => [c.condition, c.thenPart, c.elsePart]
  | .tryStatement c => c.tryBlock :: (c.catchClauses ++ [c.finallyBlock])
  | .catchClause c => [c.varName, c.guard, c.body]
  | .forInLoop c => [c.iterator, c.iteratedObject, c.loop.body]
  | .doLoop c => [c.loop.body, c.condition]
  | .whileLoop c => [c.condition, c.loop.body]
  | .name _ | .numberLiteral _ | .stringLiteral _ | .keywordLiteral _ => []

/-- The children in structural order. -/
def children (c : Contents) : List NodeIndex := c.links.filterMap id

/-- What every loop has, if the contents are those of a loop. -/
def loop? : Contents → Option Loop
  | .forInLoop c => some c.loop
  | .doLoop c => some c.loop
  | .whileLoop c => some c.loop
  | _ => none

/-! ## One slot -/

/-- The occupant of a slot, if the contents have the slot. -/
def child? : Contents → ChildSlot → Option Link
  | .objectProperty c, .left => some c.left
  | .objectProperty c, .right => some c.right
  | .expressionStatement c, .expression => some c.expression
  | .ifStatement c, .condition => some c.condition
  | .ifStatement c, .thenPart => some c.thenPart
  | .ifStatement c, .elsePart => some c.elsePart
  | .tryStatement c, .tryBlock => some c.tryBlock
  | .tryStatement c, .finallyBlock => some c.finallyBlock
  | .catchClause c, .varName => some c.varName
  | .catchClause c, .guard => some c.guard
  | .catchClause c, .handlerBody => some c.body
  | .forInLoop c, .iterator => some c.iterator
  | .forInLoop c, .iteratedObject => some c.iteratedObject
  | .forInLoop c, .body => some c.loop.body
  | .doLoop c, .body => some c.loop.body
  | .doLoop c, .condition => some c.condition
  | .whileLoop c, .body => some c.loop.body
  | .whileLoop c, .condition => some c.condition
  | _, _ => none

/-- The contents with another occupant in a slot; contents without the slot stay as they are. -/
def setChild (slot : ChildSlot) (child : Link) : Contents → Contents
  | .objectProperty c => .objectProperty <| match slot with
    | .left => { c with left := child }
    | .right => { c with right := child }
    | _ => c
  | .expressionStatement c => .expressionStatement <| match slot with
    | .expression => { c with expression := child }
    | _ => c
  | .ifStatement c => .ifStatement <| match slot with
    | .condition => { c with condition := child }
    | .thenPart => { c with thenPart := child }
    | .elsePart => { c with elsePart := child }
    | _ => c
  | .tryStatement c => .tryStatement <| match slot with
    | .tryBlock => { c with tryBlock := child }
    | .finallyBlock => { c with finallyBlock := child }
    | _ => c
  | .catchClause c => .catchClause <| match slot with
    | .varName => { c with varName := child }
    | .guard => { c with guard := child }
    | .handlerBody => { c with body := child }
    | _ => c
  | .forInLoop c => .forInLoop <| match slot with
    | .iterator => { c with iterator := child }
    | .iteratedObject => { c with iteratedObject := child }
    | .body => { c with loop.body := child }
    | _ => c
  | .doLoop c => .doLoop <| match slot with
    | .body => { c with loop.body := child }
    | .condition => { c with condition := child }
    | _ => c
  | .whileLoop c => .whileLoop <| match slot with
    | .body => { c with loop.body := child }
    | .condition => { c with condition := child }
    | _ => c
  | c => c

/-- A list of children, if the contents have the list. -/
def list? : Contents → ListSlot → Option (List Link)
  | .arrayLiteral c, .elements => some c.elements
  | .objectLiteral c, .elements => some c.elements
  | .block c, .statements => some c.statements
  | .tryStatement c, .catchClauses => some c.catchClauses
  | _, _ => none

/-- The contents with another list of children; contents without the list stay as they are. -/
def setList (slot : ListSlot) (children : List Link) : Contents → Contents
  | .arrayLiteral c => .arrayLiteral <| match slot with
    | .elements => { c with elements := children }
    | _ => c
  | .objectLiteral c => .objectLiteral <| match slot with
    | .elements => { c with elements := children }
    | _ => c
  | .block c => .block <| match slot with
    | .statements => { c with statements := children }
    | _ => c
  | .tryStatement c => .tryStatement <| match slot with
    | .catchClauses => { c with catchClauses := children }
    | _ => c
  | c => c

/-! ## All slots -/

/-- The contents with every link replaced: single slots by one function, lists by another. -/
def rewire (slot : Link → Link) (list : List Link → List Link) : Contents → Contents
  | .arrayLiteral c => .arrayLiteral { c with elements := list c.elements }
  | .objectLiteral c => .objectLiteral { c with elements := list c.elements }
  | .objectProperty c => .objectProperty { c with left := slot c.left, right := slot c.right }
  | .block c => .block { c with statements := list c.statements }
  | .expressionStatement c => .expressionStatement { c with expression := slot c.expression }
  | .ifStatement c => .ifStatement
      { c with
        condition := slot c.condition, thenPart := slot c.thenPart, elsePart := slot c.elsePart }
  | .tryStatement c => .tryStatement
      { c with
        tryBlock := slot c.tryBlock, catchClauses := list c.catchClauses,
        finallyBlock := slot c.finallyBlock }
  | .catchClause c => .catchClause
      { c with varName := slot c.varName, guard := slot c.guard, body := slot c.body }
  | .forInLoop c => .forInLoop
      { c with
        iterator := slot c.iterator, iteratedObject := slot c.iteratedObject,
        loop.body := slot c.loop.body }
  | .doLoop c => .doLoop { c with loop.body := slot c.loop.body, condition := slot c.condition }
  | .whileLoop c => .whileLoop
      { c with condition := slot c.condition, loop.body := slot c.loop.body }
  | c => c

/-- The contents with a child taken out of every slot and list in which it stands. -/
def erase (child : Link) (c : Contents) : Contents :=
  c.rewire (fun occupant => if occupant = child then none else occupant)
    (fun entries => entries.filter (· ≠ child))

/-- The contents with every link renamed, in its place. -/
def mapLinks (rename : Link → Link) (c : Contents) : Contents := c.rewire rename (·.map rename)

/-! ## What the operations do to each other -/

/-- Filling a slot keeps the kind. -/
@[simp] theorem kind_setChild (slot : ChildSlot) (child : Link) (c : Contents) :
    (c.setChild slot child).kind = c.kind := by cases c <;> rfl

/-- Replacing a list keeps the kind. -/
@[simp] theorem kind_setList (slot : ListSlot) (children : List Link) (c : Contents) :
    (c.setList slot children).kind = c.kind := by cases c <;> rfl

/-- Changing links keeps the kind, whatever becomes of them. -/
@[simp] theorem kind_rewire (slot : Link → Link) (list : List Link → List Link) (c : Contents) :
    (c.rewire slot list).kind = c.kind := by cases c <;> rfl

@[simp] theorem kind_erase (child : Link) (c : Contents) : (c.erase child).kind = c.kind :=
  kind_rewire ..

@[simp] theorem kind_mapLinks (rename : Link → Link) (c : Contents) :
    (c.mapLinks rename).kind = c.kind := kind_rewire ..

/-- Fresh contents are contents of the kind that was asked for. -/
theorem kind_of_fresh? {k : Kind} {c : Contents} (h : fresh? k = some c) : c.kind = k := by
  cases k <;> simp_all [fresh?] <;> subst h <;> rfl

/-- Only the bare kinds have no contents. -/
theorem fresh?_eq_none_iff {k : Kind} : fresh? k = none ↔ k.isBare := by
  cases k <;> simp [fresh?, Kind.isBare]

/-- The contents of a kind have the slots that the kind owns, and no others. -/
theorem isSome_child?_iff (c : Contents) (slot : ChildSlot) :
    (c.child? slot).isSome = slot.owner.admits c.kind := by
  cases c <;> cases slot <;> rfl

/-- The contents of a kind have the lists that the kind owns, and no others. -/
theorem isSome_list?_iff (c : Contents) (slot : ListSlot) :
    (c.list? slot).isSome = slot.owner.admits c.kind := by
  cases c <;> cases slot <;> rfl

/-- Renaming the children renames the links, each in its place. -/
theorem links_mapLinks (rename : Link → Link) (c : Contents) :
    (c.mapLinks rename).links = c.links.map rename := by
  cases c <;> simp [mapLinks, rewire, links]

end Contents

end SyntaxForest
