import SyntaxForest.Forest.Basic
import SyntaxForest.Numeric.Layout

/-!
# Building nodes

The ways to make a node.  Each is a `Construction`, a value that says what the node will be;
`Forest.construct` adds it as a tree of its own, under an identity that the caller chooses.
Required slots of a new compound are empty, to be filled by edits.
-/

namespace SyntaxForest

/-- The text of a number that has no token.  Numbers below `0.0001` or from `1e16` on are written
with a power of ten; a half goes up. -/
def numberLayout : Layout := ⟨-4, [], .up⟩

/-- The token of a number: the shortest decimal that reads back, with at least one digit behind
the point; the numbers that are not finite go by name. -/
def numberToken (x : Binary64) : String :=
  if x.isNaN then "NaN"
  else if !x.isFinite then if x.isNegative then "-inf" else "inf"
  else String.ofList (numberLayout.finite x)

/-- The number of characters of a token, as a length in a header. -/
def tokenLength (s : String) : Int32 := Int32.ofNat (min s.length (2 ^ 31 - 1))

/-- What a new node is to be. -/
inductive Construction where
  /-- A node of any kind with nothing in it. -/
  | node (kind : Kind) (pos len : Int32)
  | name (pos : Int32) (identifier : String)
  | number (pos : Int32) (token : String)
  | numberWithValue (pos : Int32) (token : String) (value : Binary64)
  /-- A number that stands nowhere in a source. -/
  | numberOfValue (value : Binary64)
  | string (pos len : Int32) (value : String) (quote : Char)
  | keyword (pos : Int32) (word : Keyword)
  /-- The place of an element that an array leaves out. -/
  | elision (pos : Int32)
  deriving Repr

namespace Construction

/-- The kind of the new node. -/
def kind : Construction → Kind
  | .node kind .. => kind
  | .name .. => .name
  | .number .. | .numberWithValue .. | .numberOfValue .. => .numberLiteral
  | .string .. => .stringLiteral
  | .keyword .. => .keywordLiteral
  | .elision .. => .emptyExpression

/-- Where the new node starts. -/
def pos : Construction → Int32
  | .node _ pos _ | .name pos _ | .number pos _ | .numberWithValue pos _ _ | .string pos _ _ _
  | .keyword pos _ | .elision pos => pos
  | .numberOfValue _ => noPosition

/-- How long the new node is: as long as its token, where it is one. -/
def len : Construction → Int32
  | .node _ _ len | .string _ len _ _ => len
  | .name _ identifier => tokenLength identifier
  | .number _ token | .numberWithValue _ token _ => tokenLength token
  | .numberOfValue _ => noPosition
  | .keyword _ word => tokenLength word.text
  | .elision _ => 0

/-- What the new node holds. -/
def contents? : Construction → Option Contents
  | .node kind _ _ => Contents.fresh? kind
  | .name _ identifier => some (.name ⟨identifier⟩)
  | .number _ token => some (.numberLiteral ⟨some token, .zero⟩)
  | .numberWithValue _ token value => some (.numberLiteral ⟨some token, value⟩)
  | .numberOfValue value => some (.numberLiteral ⟨some (numberToken value), value⟩)
  | .string _ _ value quote => some (.stringLiteral ⟨value, quote⟩)
  | .keyword _ word => some (.keywordLiteral ⟨word⟩)
  | .elision _ => none

/-- A new node holds what belongs to its kind. -/
theorem kind_of_contents? {c : Construction} {contents : Contents}
    (h : c.contents? = some contents) : contents.kind = c.kind := by
  cases c <;> simp only [contents?, Option.some.injEq, reduceCtorEq] at h
  case node => exact Contents.kind_of_fresh? h
  all_goals subst h; rfl

end Construction

namespace Forest

/-- The most nodes for which room is made ahead, whatever a caller expects. -/
def maxReserve : Nat := 5000000

/-- A forest without nodes, with room for as many as a caller expects. -/
def withCapacity (expected : Nat) : Forest where
  headers := Array.emptyWithCapacity (min expected maxReserve)
  records := Array.emptyWithCapacity (min expected maxReserve)

/-- The place that contents will have in the pool of their kind. -/
def nextEntry (f : Forest) (c : Contents) : Nat := f.pools.size c.kind

/-- The forest with a node more.  Its place is the number of nodes before. -/
def push (f : Forest) (kind : Kind) (pos len : Int32) (contents : Option Contents)
    (record : NodeRecord) : Forest where
  headers := f.headers.push ⟨kind, pos, len, contents.map f.nextEntry⟩
  records := f.records.push record
  pools := contents.elim f.pools f.pools.push

/-- The forest with a new node, which is a root. -/
def construct (f : Forest) (id : Nat) (c : Construction) : Forest :=
  f.push c.kind c.pos c.len c.contents? { id }

end Forest

end SyntaxForest
