import SyntaxForest.Assembly
import SyntaxForest.Forest.Walk
import SyntaxForest.Numeric.Token
import SyntaxForest.Text.Blank
import SyntaxForest.Text.Quoted

/-!
# Interchange records

The record of a tree: an object that names the type of the node, holds its values and the records
of its children, and ends with the annotator's four fields.

Two constructs are recorded with a loss that readers rely on: of the handlers of a `try` only the
first is recorded, and every loop over an object is recorded as one over its keys.
-/

namespace SyntaxForest

namespace Interchange

/-- The value of a number token: an integer if it is one of 32 bits, else the nearest float of the
token without blanks around it, and `null` for anything else. -/
def numberValue (token : String) : Json :=
  match NumberToken.int32? token.toList with
  | some n => .int n
  | none =>
    match NumberToken.binary64? (trimmed token.toList) with
    | some x => Json.ofBinary64 x
    | none => .null

/-- The fields of a record, in order. -/
abbrev Fields := List (String × Json)

/-- The record of a child, or `null` for an empty slot. -/
def optional (child : Link) : Recipe Json Json :=
  if child.isNone then return .null else Recipe.take child

/-- The records of several children. -/
def array (children : List Link) : Recipe Json Json := do
  return .array (← Recipe.takeAll children)

/-- The type and the fields of a keyword.  `this` is an expression of its own type and has no
value. -/
def keywordFields (keyword : Keyword) : Fields :=
  let literal (value : Json) : Fields :=
    [("type", .string Kind.keywordLiteral.recordType), ("value", value),
      ("raw", .string keyword.text)]
  match keyword with
  | .true => literal (.bool true)
  | .false => literal (.bool false)
  | .null => literal .null
  | .this => [("type", .string "ThisExpression")]

/-- The type and the fields of a node from its contents. -/
def ofContents (contents : Contents) : Recipe Json Fields :=
  let kind := contents.kind
  let required := Recipe.takeRequired (α := Json) kind
  let typed (fields : Fields) : Fields := ("type", .string kind.recordType) :: fields
  match contents with
  | .name c => return typed [("name", .string c.identifier)]
  | .numberLiteral c =>
    match c.token with
    | some token => return typed [("value", numberValue token), ("raw", .string token)]
    | none => .fail (.missingRequiredChild kind .token)
  | .stringLiteral c =>
    return typed [("value", .string c.value), ("raw", .string (quoted c.quote c.value))]
  | .keywordLiteral c => return keywordFields c.keyword
  | .arrayLiteral c => do return typed [("elements", ← array c.elements)]
  | .objectLiteral c => do return typed [("properties", ← array c.elements)]
  | .objectProperty c => do
    let key ← required .left c.left
    let value ← required .right c.right
    return typed [("key", key), ("value", value), ("kind", .string "init")]
  | .block c => do return typed [("body", ← array c.statements)]
  | .expressionStatement c => do
    return typed [("expression", ← required .expression c.expression)]
  | .ifStatement c => do
    let test ← required .condition c.condition
    let consequent ← required .thenPart c.thenPart
    let alternate ← optional c.elsePart
    return typed [("test", test), ("consequent", consequent), ("alternate", alternate)]
  | .tryStatement c =>
    match c.catchClauses with
    | [] => .fail (.indexOutOfBounds kind .catchClauses 0 0)
    | first :: _ => do
      let block ← required .tryBlock c.tryBlock
      let handler ← Recipe.take first
      let finalizer ← optional c.finallyBlock
      return typed [("block", block), ("handler", handler), ("finalizer", finalizer)]
  | .catchClause c => do
    let param ← required .varName c.varName
    let guard ← optional c.guard
    let body ← required .handlerBody c.body
    return typed [("param", param), ("guard", guard), ("body", body)]
  | .forInLoop c => do
    let left ← required .iterator c.iterator
    let right ← required .iteratedObject c.iteratedObject
    let body ← required .body c.loop.body
    return typed [("left", left), ("right", right), ("body", body), ("each", .bool false)]
  | .doLoop c => do
    let test ← required .condition c.condition
    let body ← required .body c.loop.body
    return typed [("test", test), ("body", body)]
  | .whileLoop c => do
    let test ← required .condition c.condition
    let body ← required .body c.loop.body
    return typed [("test", test), ("body", body)]

/-- The type and the fields of a node that has lost its contents, or never had any.  A string has
no value then; other nodes are recorded as if they were new. -/
def ofBare (kind : Kind) : Recipe Json Fields :=
  match kind, Contents.fresh? kind with
  | .stringLiteral, _ | _, none => return [("type", .string kind.recordType)]
  | _, some c => ofContents c

/-- The annotator's fields, with which every record ends.  A set that was never attached is
recorded as an empty one. -/
def trailer (record : NodeRecord) : Fields :=
  let records (set : Option AnnotationSet) : Json := (set.getD .empty).toJson
  [("criteria", records record.criteria), ("dependencies", records record.dependencies),
    ("change", .string record.change.name),
    ("change-noprop", .string record.changeNoPropagate.name)]

variable (f : Forest)

/-- How the record of a node is made of those of its children. -/
def recipe (x : NodeIndex) : Recipe Json Json :=
  match f.header? x with
  | none => .fail (.unknownNode x)
  | some h => do
    let fields ← match f.held? h with
      | some c => ofContents c
      | none => ofBare h.kind
    return .object (fields ++ trailer ((f.record? x).getD {}))

/-- The children whose records stand in the record of a node: all of them, but only the first
handler of a `try`. -/
def parts (x : NodeIndex) : Except TreeError (List NodeIndex) := do
  let h ← f.header x
  match f.held? h with
  | some (.tryStatement c) =>
    return [c.tryBlock, c.catchClauses.head?.join, c.finallyBlock].filterMap id
  | some c => return c.children
  | none => return []

/-- Recording as an assembly of records. -/
def assembly : Assembly Json NodeIndex where
  node := id
  parts := parts f
  recipe := recipe f

end Interchange

/-- The interchange record of a tree. -/
def Forest.record (f : Forest) (root : Link) : Except TreeError Json := do
  f.checkHeight root
  match root with
  | some x => (Interchange.assembly f).run f.size x
  | none => .error (.unknownNode none)

end SyntaxForest
