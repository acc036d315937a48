import SyntaxForest.AnnotationSet
import SyntaxForest.Change
import SyntaxForest.Error
import SyntaxForest.Pools

/-!
# Forests

A forest keeps any number of trees in one place.  A node has three parts: a header, which names its
kind and its range in the source; its contents, which hold its children (`Contents`); and its
record, which holds its parent, its identity and an annotator's marks.  A node is named by the
place of its header.

Children and parents are stored independently of each other, and a forest that was read from a
text may have lost parts: a header without contents, a node without a record, links to no node.
Every query answers for such forests too.  The queries take a `Link`, so a caller can follow one
without asking first.
-/

namespace SyntaxForest

/-- The kind of a node, its range in the source, and the place of its contents in the pool of its
kind. -/
structure Header where
  kind : Kind
  pos : Int32
  len : Int32
  entry : Option Nat
  deriving DecidableEq, Repr

/-- The offset behind a node, if its range is known and ends before `2 ^ 31`. -/
def Header.end? (h : Header) : Option Int32 :=
  let sum := h.pos.toInt + h.len.toInt
  if h.pos < 0 ∨ h.len < 0 ∨ 2 ^ 31 ≤ sum then none else some (Int32.ofInt sum)

/-- What is known of a node besides its syntax. -/
structure NodeRecord where
  parent : Link := none
  /-- The identity that a node shares with its copies; zero is no identity. -/
  id : Nat := noId
  line : Int32 := noPosition
  change : Change := .unknown
  changeNoPropagate : Change := .unknown
  criteria : Option AnnotationSet := none
  dependencies : Option AnnotationSet := none
  moved : Bool := false
  fixedPosition : Bool := false
  deriving Inhabited

/-- The records that were attached to a node under a name. -/
def NodeRecord.attachment (r : NodeRecord) : Attachment → Option AnnotationSet
  | .criteria => r.criteria
  | .dependencies => r.dependencies

/-- Trees that share one numbering of nodes. -/
structure Forest where
  headers : Array Header := #[]
  records : Array NodeRecord := #[]
  pools : Pools := {}
  deriving Inhabited

namespace Forest

/-- The forest without nodes. -/
def empty : Forest := {}

/-- The number of nodes, whichever trees they stand in. -/
def size (f : Forest) : Nat := f.headers.size

/-! ## Parts of a node -/

/-- The header of a node. -/
def header? (f : Forest) (x : Link) : Option Header := x.bind (f.headers[·]?)

/-- The record of a node. -/
def record? (f : Forest) (x : Link) : Option NodeRecord := x.bind (f.records[·]?)

/-- The contents that a header names. -/
def held? (f : Forest) (h : Header) : Option Contents := h.entry.bind (f.pools.get? h.kind)

/-- The contents of a node. -/
def contents? (f : Forest) (x : Link) : Option Contents := (f.header? x).bind f.held?

/-- Whether a link names a node. -/
def contains (f : Forest) (x : Link) : Bool := (f.header? x).isSome

/-- The kind of a node. -/
def kind? (f : Forest) (x : Link) : Option Kind := (f.header? x).map (·.kind)

/-- The header of a node; a link that names no node is an error. -/
def header (f : Forest) (x : Link) : Except TreeError Header :=
  match f.header? x with
  | some h => .ok h
  | none => .error (.unknownNode x)

/-- The header of a node that has to be of a certain kind. -/
def headerOf (f : Forest) (expected : Expectation) (x : Link) : Except TreeError Header :=
  match f.header? x with
  | none => .error (.unknownNode x)
  | some h => if expected.admits h.kind then .ok h else .error (.unexpectedKind expected h.kind)

/-- The contents of a node that has to be of a certain kind. -/
def contentsOf (f : Forest) (expected : Expectation) (x : Link) : Except TreeError Contents := do
  match f.held? (← f.headerOf expected x) with
  | some c => .ok c
  | none => .error (.unknownNode x)

/-! ## Downwards -/

/-- The children of a node in structural order; empty slots are left out. -/
def children (f : Forest) (x : Link) : List NodeIndex :=
  match f.contents? x with
  | some c => c.children
  | none => []

/-- The occupant of a slot; none also for a node without the slot. -/
def child (f : Forest) (x : Link) (slot : ChildSlot) : Link :=
  ((f.contents? x).bind (·.child? slot)).join

/-- A list of children, empty also for a node without the list. -/
def list (f : Forest) (x : Link) (slot : ListSlot) : List Link :=
  ((f.contents? x).bind (·.list? slot)).getD []

/-- An element of a literal by its position. -/
def elementAt (f : Forest) (x : Link) (position : Nat) : Except TreeError Link := do
  let h ← f.header x
  match (f.held? h).bind (·.list? .elements) with
  | none => .error (.unexpectedKind .container h.kind)
  | some elements =>
    match elements[position]? with
    | some element => .ok element
    | none => .error (.indexOutOfBounds h.kind .elements position elements.length)

/-- The labels of a loop. -/
def labels (f : Forest) (x : Link) : List String :=
  match (f.contents? x).bind (·.loop?) with
  | some loop => loop.labels
  | none => []

/-- The identifier of a name. -/
def identifier? (f : Forest) (x : Link) : Option String :=
  match f.contents? x with
  | some (.name c) => some c.identifier
  | _ => none

/-- The token of a number. -/
def token? (f : Forest) (x : Link) : Option String :=
  match f.contents? x with
  | some (.numberLiteral c) => c.token
  | _ => none

/-- The destructuring length of an array, zero for other nodes. -/
def destructuringLength (f : Forest) (x : Link) : Int32 :=
  match f.contents? x with
  | some (.arrayLiteral c) => c.destructuringLength
  | _ => 0

/-- The number of elisions of an array, zero for other nodes. -/
def skipCount (f : Forest) (x : Link) : Int32 :=
  match f.contents? x with
  | some (.arrayLiteral c) => c.skipCount
  | _ => 0

/-- Whether a literal is marked as the target of a destructuring. -/
def isDestructuring (f : Forest) (x : Link) : Bool :=
  match f.contents? x with
  | some (.arrayLiteral c) => c.isDestructuring
  | some (.objectLiteral c) => c.isDestructuring
  | _ => false

/-- Whether a node is a statement. -/
def isStatement (f : Forest) (x : Link) : Bool := (f.kind? x).any (·.isStatement)

/-! ## Upwards -/

/-- The parent of a node. -/
def parent (f : Forest) (x : Link) : Link := (f.record? x).bind (·.parent)

/-- The links met by following parents from a link on, the link itself included.  The first
argument bounds their number. -/
def lineage (f : Forest) : Nat → Link → List NodeIndex
  | 0, _ => []
  | _ + 1, none => []
  | bound + 1, some x => x :: f.lineage bound (f.parent (some x))

/-- The ancestors of a node, from its parent up to its root.  A chain of parents without a circle
has at most one node for each record, which is why the bound cuts nothing off. -/
def ancestors (f : Forest) (x : Link) : List NodeIndex := f.lineage f.records.size (f.parent x)

/-- The number of ancestors. -/
def depth (f : Forest) (x : Link) : Nat := (f.ancestors x).length

/-- The last ancestor, or the node itself if it has none. -/
def root (f : Forest) (x : Link) : Link := (f.ancestors x).getLast?.or x

/-- Whether a node stands where its parent has a statement: in a block, a branch or the body of a
loop. -/
def inStatementPosition (f : Forest) (x : Link) : Bool :=
  let p := f.parent x
  match f.kind? p with
  | some .block => true
  | some .ifStatement =>
    match f.contents? p with
    | some (.ifStatement c) => c.thenPart == x || c.elsePart == x
    | _ => false
  | some .forInLoop | some .doLoop | some .whileLoop => f.child p .body == x
  | _ => false

end Forest

end SyntaxForest
