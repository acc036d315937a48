import SyntaxForest.Forest.Basic
import SyntaxForest.Json.Reader
import SyntaxForest.Json.Writer
import SyntaxForest.Stored.Contents

/-!
# The stored form of a forest

A forest as one object: the headers, the records, and the pools of each kind.  Reading checks
nothing beyond the types, so a forest that is read can lack parts of its nodes and name nodes that
it does not have.  A forest that was written is read as it was but for its floats: one that is not
finite has no text and makes the forest unreadable, and any other is read as `Json.Numeral.float?`
reads, which may give a neighbour.
-/

namespace SyntaxForest

namespace Stored

open Json (Raw)

/-- The stored form of a header. -/
def header (h : Header) : Json :=
  .object [("kind", kind h.kind), ("pos", int32 h.pos), ("len", int32 h.len),
    ("data_index", place h.entry)]

def header? (raw : Raw) : Option Header := do
  let [kind, pos, len, entry] ← raw.record? ["kind", "pos", "len", "data_index"] 4 | none
  return {
    kind := ← required kind? kind
    pos := ← required int32? pos
    len := ← required int32? len
    entry := ← required place? entry }

/-- An annotation set, or `null` where none was attached. -/
def optionalAnnotations (set : Option AnnotationSet) : Json := (set.map annotations).getD .null

/-- The stored form of a record. -/
def record (r : NodeRecord) : Json :=
  .object [("parent", place r.parent), ("id", id r.id), ("line", int32 r.line),
    ("change", change r.change), ("change_no_propagate", change r.changeNoPropagate),
    ("criteria", optionalAnnotations r.criteria),
    ("dependencies", optionalAnnotations r.dependencies), ("moved", .bool r.moved),
    ("fixed_position", .bool r.fixedPosition)]

def record? (raw : Raw) : Option NodeRecord := do
  let [parent, id, line, change, changeNoPropagate, criteria, dependencies, moved,
      fixedPosition] ← raw.record?
      ["parent", "id", "line", "change", "change_no_propagate", "criteria", "dependencies",
        "moved", "fixed_position"] 9
    | none
  return {
    parent := ← required place? parent
    id := ← required id? id
    line := ← required int32? line
    change := ← required change? change
    changeNoPropagate := ← required change? changeNoPropagate
    criteria := ← optional annotations? criteria
    dependencies := ← optional annotations? dependencies
    moved := ← required Raw.bool? moved
    fixedPosition := ← required Raw.bool? fixedPosition }

/-- An array of things that are written in one way. -/
def array {α : Type} (write : α → Json) (xs : Array α) : Json := .array (xs.toList.map write)

/-- An array that a record must have. -/
def array? {α : Type} (read : Raw → Option α) (field : Option Raw) : Option (Array α) :=
  (required (Raw.list? read) field).map List.toArray

/-- The stored form of a forest. -/
def forest (f : Forest) : Json :=
  .object [("nodes", array header f.headers), ("extended_info", array record f.records),
    ("names", array name f.pools.names),
    ("number_literals", array numberLiteral f.pools.numberLiterals),
    ("string_literals", array stringLiteral f.pools.stringLiterals),
    ("keyword_literals", array keywordLiteral f.pools.keywordLiterals),
    ("array_literals", array arrayLiteral f.pools.arrayLiterals),
    ("object_literals", array objectLiteral f.pools.objectLiterals),
    ("object_properties", array objectProperty f.pools.objectProperties),
    ("blocks", array block f.pools.blocks),
    ("expr_statements", array expressionStatement f.pools.expressionStatements),
    ("if_statements", array ifStatement f.pools.ifStatements),
    ("try_data", array tryStatement f.pools.tryStatements),
    ("catch_clauses", array catchClause f.pools.catchClauses),
    ("for_in_loops", array forInLoop f.pools.forInLoops),
    ("do_loops", array doLoop f.pools.doLoops),
    ("while_loops", array whileLoop f.pools.whileLoops)]

def forest? (raw : Raw) : Option Forest := do
  let [headers, records, names, numberLiterals, stringLiterals, keywordLiterals, arrayLiterals,
      objectLiterals, objectProperties, blocks, expressionStatements, ifStatements,
      tryStatements, catchClauses, forInLoops, doLoops, whileLoops] ← raw.record?
      ["nodes", "extended_info", "names", "number_literals", "string_literals",
        "keyword_literals", "array_literals", "object_literals", "object_properties", "blocks",
        "expr_statements", "if_statements", "try_data", "catch_clauses", "for_in_loops",
        "do_loops", "while_loops"] 17
    | none
  return {
    headers := ← array? header? headers
    records := ← array? record? records
    pools := {
      names := ← array? name? names
      numberLiterals := ← array? numberLiteral? numberLiterals
      stringLiterals := ← array? stringLiteral? stringLiterals
      keywordLiterals := ← array? keywordLiteral? keywordLiterals
      arrayLiterals := ← array? arrayLiteral? arrayLiterals
      objectLiterals := ← array? objectLiteral? objectLiterals
      objectProperties := ← array? objectProperty? objectProperties
      blocks := ← array? block? blocks
      expressionStatements := ← array? expressionStatement? expressionStatements
      ifStatements := ← array? ifStatement? ifStatements
      tryStatements := ← array? tryStatement? tryStatements
      catchClauses := ← array? catchClause? catchClauses
      forInLoops := ← array? forInLoop? forInLoops
      doLoops := ← array? doLoop? doLoops
      whileLoops := ← array? whileLoop? whileLoops } }

end Stored

/-- The text of a forest. -/
def Forest.toText (f : Forest) : String := (Stored.forest f).text

/-- The forest of a text. -/
def Forest.ofText? (text : String) : Option Forest := (Json.Raw.parse? text).bind Stored.forest?

end SyntaxForest
