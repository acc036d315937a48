import SyntaxForest.Contents
import SyntaxForest.Stored.Values

/-!
# The stored form of contents

For the contents of each kind, an object with the fields in a fixed order.  What all loops have is
an object of its own under `base`.  A name without a question mark writes, the name with it reads.
-/

namespace SyntaxForest

namespace Stored

open Json (Raw)

/-- The stored form of a floating-point number; one that is not finite becomes `null`. -/
def number (x : Binary64) : Json := Json.ofBinary64 x

/-- The stored form of a character. -/
def character (c : Char) : Json := .string (String.singleton c)

/-- A text, or `null` where there is none. -/
def optionalString (s : Option String) : Json := (s.map Json.string).getD .null

/-- A list of texts. -/
def strings (xs : List String) : Json := .array (xs.map .string)

/-- The stored form of an identifier. -/
def name (c : Contents.Name) : Json :=
  .object [("identifier", .string c.identifier)]

def name? (raw : Raw) : Option Contents.Name := do
  let [identifier] ← raw.record? ["identifier"] 1 | none
  return { identifier := ← required Raw.string? identifier }

/-- The stored form of a number. -/
def numberLiteral (c : Contents.NumberLiteral) : Json :=
  .object [("value", optionalString c.token), ("number", number c.value)]

def numberLiteral? (raw : Raw) : Option Contents.NumberLiteral := do
  let [token, value] ← raw.record? ["value", "number"] 2 | none
  return {
    token := ← optional Raw.string? token
    value := ← required Raw.float? value }

/-- The stored form of a string. -/
def stringLiteral (c : Contents.StringLiteral) : Json :=
  .object [("value", .string c.value), ("quote_char", character c.quote)]

def stringLiteral? (raw : Raw) : Option Contents.StringLiteral := do
  let [value, quote] ← raw.record? ["value", "quote_char"] 2 | none
  return {
    value := ← required Raw.string? value
    quote := ← required Raw.char? quote }

/-- The stored form of a keyword. -/
def keywordLiteral (c : Contents.KeywordLiteral) : Json :=
  .object [("keyword", keyword c.keyword)]

def keywordLiteral? (raw : Raw) : Option Contents.KeywordLiteral := do
  let [keyword] ← raw.record? ["keyword"] 1 | none
  return { keyword := ← required keyword? keyword }

/-- The stored form of an array. -/
def arrayLiteral (c : Contents.ArrayLiteral) : Json :=
  .object [("elements", links c.elements), ("destructuring_length", int32 c.destructuringLength),
    ("skip_count", int32 c.skipCount), ("is_destructuring", .bool c.isDestructuring)]

def arrayLiteral? (raw : Raw) : Option Contents.ArrayLiteral := do
  let [elements, destructuringLength, skipCount, isDestructuring] ← raw.record?
      ["elements", "destructuring_length", "skip_count", "is_destructuring"] 4
    | none
  return {
    elements := ← required links? elements
    destructuringLength := ← required int32? destructuringLength
    skipCount := ← required int32? skipCount
    isDestructuring := ← required Raw.bool? isDestructuring }

/-- The stored form of an object. -/
def objectLiteral (c : Contents.ObjectLiteral) : Json :=
  .object [("elements", links c.elements), ("is_destructuring", .bool c.isDestructuring)]

def objectLiteral? (raw : Raw) : Option Contents.ObjectLiteral := do
  let [elements, isDestructuring] ← raw.record? ["elements", "is_destructuring"] 2 | none
  return {
    elements := ← required links? elements
    isDestructuring := ← required Raw.bool? isDestructuring }

/-- The stored form of a property. -/
def objectProperty (c : Contents.ObjectProperty) : Json :=
  .object [("left", place c.left), ("right", place c.right)]

def objectProperty? (raw : Raw) : Option Contents.ObjectProperty := do
  let [left, right] ← raw.record? ["left", "right"] 2 | none
  return {
    left := ← required place? left
    right := ← required place? right }

/-- The stored form of a block. -/
def block (c : Contents.Block) : Json :=
  .object [("statements", links c.statements)]

def block? (raw : Raw) : Option Contents.Block := do
  let [statements] ← raw.record? ["statements"] 1 | none
  return { statements := ← required links? statements }

/-- The stored form of an expression as a statement. -/
def expressionStatement (c : Contents.ExpressionStatement) : Json :=
  .object [("expression", place c.expression)]

def expressionStatement? (raw : Raw) : Option Contents.ExpressionStatement := do
  let [expression] ← raw.record? ["expression"] 1 | none
  return { expression := ← required place? expression }

/-- The stored form of a condition with its branches. -/
def ifStatement (c : Contents.IfStatement) : Json :=
  .object [("condition", place c.condition), ("then_part", place c.thenPart),
    ("else_part", place c.elsePart), ("else_position", int32 c.elsePosition), ("lp", int32 c.lp),
    ("rp", int32 c.rp)]

def ifStatement? (raw : Raw) : Option Contents.IfStatement := do
  let [condition, thenPart, elsePart, elsePosition, lp, rp] ← raw.record?
      ["condition", "then_part", "else_part", "else_position", "lp", "rp"] 6
    | none
  return {
    condition := ← required place? condition
    thenPart := ← required place? thenPart
    elsePart := ← required place? elsePart
    elsePosition := ← required int32? elsePosition
    lp := ← required int32? lp
    rp := ← required int32? rp }

/-- The stored form of a guarded block. -/
def tryStatement (c : Contents.TryStatement) : Json :=
  .object [("try_block", place c.tryBlock), ("catch_clauses", links c.catchClauses),
    ("finally_block", place c.finallyBlock), ("finally_position", int32 c.finallyPosition)]

def tryStatement? (raw : Raw) : Option Contents.TryStatement := do
  let [tryBlock, catchClauses, finallyBlock, finallyPosition] ← raw.record?
      ["try_block", "catch_clauses", "finally_block", "finally_position"] 4
    | none
  return {
    tryBlock := ← required place? tryBlock
    catchClauses := ← required links? catchClauses
    finallyBlock := ← required place? finallyBlock
    finallyPosition := ← required int32? finallyPosition }

/-- The stored form of a handler. -/
def catchClause (c : Contents.CatchClause) : Json :=
  .object [("var_name", place c.varName), ("catch_condition", place c.guard),
    ("body", place c.body), ("if_position", int32 c.ifPosition), ("lp", int32 c.lp),
    ("rp", int32 c.rp)]

def catchClause? (raw : Raw) : Option Contents.CatchClause := do
  let [varName, guard, body, ifPosition, lp, rp] ← raw.record?
      ["var_name", "catch_condition", "body", "if_position", "lp", "rp"] 6
    | none
  return {
    varName := ← required place? varName
    guard := ← required place? guard
    body := ← required place? body
    ifPosition := ← required int32? ifPosition
    lp := ← required int32? lp
    rp := ← required int32? rp }

/-- The stored form of what every loop has. -/
def loop (c : Contents.Loop) : Json :=
  .object [("body", place c.body), ("lp", int32 c.lp), ("rp", int32 c.rp),
    ("labels", strings c.labels)]

def loop? (raw : Raw) : Option Contents.Loop := do
  let [body, lp, rp, labels] ← raw.record? ["body", "lp", "rp", "labels"] 4 | none
  return {
    body := ← required place? body
    lp := ← required int32? lp
    rp := ← required int32? rp
    labels := ← required (Raw.list? Raw.string?) labels }

/-- The stored form of a loop over an object. -/
def forInLoop (c : Contents.ForInLoop) : Json :=
  .object [("base", loop c.loop), ("iterator", place c.iterator),
    ("iterated_object", place c.iteratedObject), ("in_position", int32 c.inPosition),
    ("each_position", int32 c.eachPosition), ("is_for_each", .bool c.isForEach)]

def forInLoop? (raw : Raw) : Option Contents.ForInLoop := do
  let [loop, iterator, iteratedObject, inPosition, eachPosition, isForEach] ← raw.record?
      ["base", "iterator", "iterated_object", "in_position", "each_position", "is_for_each"] 6
    | none
  return {
    loop := ← required loop? loop
    iterator := ← required place? iterator
    iteratedObject := ← required place? iteratedObject
    inPosition := ← required int32? inPosition
    eachPosition := ← required int32? eachPosition
    isForEach := ← required Raw.bool? isForEach }

/-- The stored form of a loop that tests behind its body. -/
def doLoop (c : Contents.DoLoop) : Json :=
  .object [("base", loop c.loop), ("condition", place c.condition),
    ("while_position", int32 c.whilePosition)]

def doLoop? (raw : Raw) : Option Contents.DoLoop := do
  let [loop, condition, whilePosition] ← raw.record?
      ["base", "condition", "while_position"] 3
    | none
  return {
    loop := ← required loop? loop
    condition := ← required place? condition
    whilePosition := ← required int32? whilePosition }

/-- The stored form of a loop that tests before its body. -/
def whileLoop (c : Contents.WhileLoop) : Json :=
  .object [("base", loop c.loop), ("condition", place c.condition)]

def whileLoop? (raw : Raw) : Option Contents.WhileLoop := do
  let [loop, condition] ← raw.record? ["base", "condition"] 2 | none
  return {
    loop := ← required loop? loop
    condition := ← required place? condition }

end Stored

end SyntaxForest
